import FineGrain.Proofs.World.Tracking
/-!
Code that only looks. It ends with an answer, records what it likes, and subscribes the running
effect to what it reads; it writes no state, creates nothing and disposes nothing.
-/

namespace FineGrain

open Act

namespace Store

variable {α : Type}

theorem modify_eq_self {s : Store α} {key : Nat} {f : α → α}
    (h : ∀ a, (key, a) ∈ s.entries → f a = a) : s.modify key f = s := by
  have hs : s.entries.map (fun e => if e.1 == key then (e.1, f e.2) else (e.1, e.2)) =
      s.entries.map id := by
    apply List.map_congr_left
    rintro ⟨k, a⟩ hm
    by_cases hk : k = key
    · subst hk
      simp [h a hm]
    · simp [hk]
  exact congrArg Store.mk (hs.trans s.entries.map_id)

theorem mem_of_get? {s : Store α} {key : Nat} {a : α} (h : s.get? key = some a) :
    (key, a) ∈ s.entries := by
  obtain ⟨entries⟩ := s
  induction entries with
  | nil => simp [get?, lookup] at h
  | cons p rest ih =>
    obtain ⟨k, b⟩ := p
    by_cases hk : k = key
    · simp_all [get?, lookup]
    · simp only [get?, lookup, hk, if_false] at h
      exact List.mem_cons_of_mem _ (ih h)

end Store

namespace World

/-- What goes by a name, and the handles behind the names. -/
def scope (w : World) : List (String × Nat) × Store Held := (w.names, w.handles)

/-- A world that code has only looked at: there are new records, refs may hold something else, and
the running effect is subscribed to some sources. -/
def Looked (w w' : World) : Prop :=
  ∃ (lines : List String) (refs : Store Ref) (sources : List NodeId), w' =
    { w with
      log := w.log ++ lines
      refs := refs
      graph := sources.foldl Graph.track w.graph }

theorem Looked.refl (w : World) : w.Looked w := ⟨[], w.refs, [], by simp⟩

theorem Looked.trans {w w' w'' : World} (h : w.Looked w') (h' : w'.Looked w'') :
    w.Looked w'' := by
  obtain ⟨lines, refs, sources, rfl⟩ := h
  obtain ⟨lines', refs', sources', rfl⟩ := h'
  exact ⟨lines ++ lines', refs', sources ++ sources', by simp⟩

theorem Looked.scope {w w' : World} (h : w.Looked w') : w'.scope = w.scope := by
  obtain ⟨_, _, _, rfl⟩ := h
  rfl

theorem Looked.calm {w w' : World} (h : w.Looked w') (hc : w.Calm) : w'.Calm := by
  obtain ⟨_, _, _, rfl⟩ := h
  exact hc

theorem Looked.probes {w w' : World} (h : w.Looked w') : w'.probes = w.probes := by
  obtain ⟨_, _, _, rfl⟩ := h
  rfl

/-- No effect is running. -/
def AtRest (w : World) : Prop := ∀ p ∈ w.effects.entries, p.2.running = false

end World

/-- Under the given names, an act only looks. -/
def Act.Looks {α : Type} (scope : List (String × Nat) × Store Held) (a : Act α) : Prop :=
  ∀ w : World, w.scope = scope → w.Calm → w.probes = .empty →
    ∃ v w', w.run a = (.ok v, w') ∧ w.Looked w'

namespace Act

variable {α β : Type} {scope : List (String × Nat) × Store Held}

theorem Looks.pure (a : α) : Looks scope (pure a : Act α) :=
  fun w _ _ _ => ⟨a, w, rfl, .refl w⟩

theorem Looks.bind {a : Act α} {f : α → Act β} (ha : Looks scope a) (hf : ∀ v, Looks scope (f v)) :
    Looks scope (a >>= f) := by
  intro w hs hc hp
  obtain ⟨v, w', hv, hl⟩ := ha w hs hc hp
  obtain ⟨u, w'', hu, hl'⟩ := hf v w' (hl.scope.trans hs) (hl.calm hc) (hl.probes.trans hp)
  exact ⟨u, w'', by rw [World.run_bind_ok hv, hu], hl.trans hl'⟩

end Act

namespace World

variable {w : World} {host : Host}

/-- The world in which the computation of an effect starts. -/
def starting (w : World) (e : NodeId) (providers : List Provider) : World :=
  { w with
    effects := w.effects.modify e fun x => { x with running := true }
    graph := (w.graph.clearDependencies e).pushObserver e
    providers := providers }

/-- The world when the computation of an effect has led to `w'`. -/
def finished (w w' : World) : World :=
  { w' with effects := w.effects, graph := w'.graph.popObserver, providers := w.providers }

theorem run_runEffect {e : NodeId} {x : Effect} {w' : World} (hr : w.AtRest)
    (he : w.effects.get? e = some x)
    (hrun : (w.starting e x.providers).run (compute host x.computation) = (.ok ⟨⟩, w'))
    (hsame : w'.effects = (w.starting e x.providers).effects) :
    w.run (runEffect host e) = (.ok ⟨⟩, w.finished w') := by
  have hx : x.running = false := hr _ (Store.mem_of_get? he)
  have hp := run_providing (w := { w with
    effects := w.effects.modify e fun x => { x with running := true }
    graph := (w.graph.clearDependencies e).pushObserver e }) hrun
  simp only [runEffect, run_bind, run_get, he, hx, modifyEffect, run_modify, run_onGraph, hp,
    Bool.false_eq_true, if_false]
  simp only [hsame, starting, finished, Store.modify_modify]
  rw [Store.modify_eq_self]
  rintro ⟨computation, timing, providers, running⟩ ha
  have := hr _ ha
  simp_all

end World

end FineGrain

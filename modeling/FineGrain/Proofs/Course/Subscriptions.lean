import FineGrain.Proofs.Course.Programs
/-!
Subscriptions are the tracked reads of the last run. The graph lists for an effect exactly what was
read while the effect was the innermost one under way and not hidden, since its last run began.
-/

namespace FineGrain

open Act

namespace Frame

/-- The effects that observe reads, the innermost first. -/
def observers : List Frame → List NodeId
  | [] => []
  | .effect e _ _ _ _ :: rest => e :: observers rest
  | .untracked _ :: _ => []
  | _ :: rest => observers rest

/-- The effect that a read is put down to. -/
def observer? (fs : List Frame) : Option NodeId := (observers fs).head?

/-- What every hiding puts back is what was observing around it. -/
def Nested : List Frame → Prop
  | [] => True
  | .untracked hidden :: rest => hidden = observers rest ∧ Nested rest
  | _ :: rest => Nested rest

theorem observers_count (fs : List Frame) : observers (count fs) = observers fs := by
  unfold count
  split <;> rfl

theorem nested_count {fs : List Frame} (h : Nested fs) : Nested (count fs) := by
  unfold count
  split <;> exact h

end Frame

namespace Event

/-- A step that neither hides nor shows the observers and neither starts nor ends a run. -/
def Plain : Event → Prop
  | hidden _ | shown _ | started _ _ _ _ | finished _ _ => False
  | _ => True

end Event

namespace History

/-- What an effect has read, and what it found, since its last run began. What is gone is not listed
any more. -/
def lastReads (e : NodeId) : History → List (Nat × Value)
  | [] => []
  | ev :: h =>
      match ev with
      | .started k _ _ _ => if k = e then [] else lastReads e h
      | .tracked s v =>
          if Frame.observer? (frames h) = some e then lastReads e h ++ [(s, v)] else lastReads e h
      | .signalGone k | .effectGone k =>
          if k = e then [] else (lastReads e h).filter fun read => read.1 != k
      | _ => lastReads e h

/-- The signals that an effect has read in its last run, in the order in which it first read them. -/
def sources (h : History) (e : NodeId) : List NodeId := ((h.lastReads e).map (·.1)).eraseDups

end History

namespace Course

variable {c : Course} {ev : Event} {e : NodeId}

theorem frames_plain (h : c.history.Allows ev) (hp : ev.Plain) :
    Frame.observers (c.push ev h).frames = Frame.observers c.frames ∧
      (Frame.Nested c.frames → Frame.Nested (c.push ev h).frames) := by
  have hstep := frames_step h
  generalize (c.push ev h).frames = after at hstep ⊢
  generalize c.frames = before at hstep ⊢
  cases hstep with
  | same => exact ⟨rfl, id⟩
  | @opened f fs hby =>
    cases f with
    | effect =>
      obtain ⟨_, _, rfl⟩ := hby
      cases hp
    | untracked =>
      obtain rfl := hby
      cases hp
    | _ => exact ⟨rfl, id⟩
  | @closed f fs hby =>
    cases f with
    | effect | untracked =>
      obtain rfl := hby
      cases hp
    | _ => exact ⟨rfl, id⟩
  | done _ => exact ⟨Frame.observers_count _, fun hn => Frame.nested_count hn⟩

theorem observers_plain (h : c.history.Allows ev) (hp : ev.Plain) :
    (ev.world c.world).graph.observers = c.world.graph.observers := by
  cases ev with
  | hidden | shown | started | finished => cases hp
  | aside w => exact congrArg Graph.observers (World.Aside.graph h)
  | tracked s => exact Graph.observers_track _ s
  | effectGone k | signalGone k => exact Graph.observers_removeNode
  | composing s => simp [Event.world, World.opened_eq]
  | _ => rfl

theorem observed (c : Course) :
    c.world.graph.observers = Frame.observers c.frames ∧ Frame.Nested c.frames := by
  induction c using Course.induction with
  | start => exact ⟨rfl, trivial⟩
  | push c ev h ih =>
    obtain ⟨hobs, hnested⟩ := ih
    -- Four kinds of steps change who observes; the frame on top says what to go back to.
    by_cases hp : ev.Plain
    · obtain ⟨hsame, hkeep⟩ := frames_plain h hp
      exact ⟨(observers_plain h hp).trans (hobs.trans hsame.symm), hkeep hnested⟩
    · cases ev with
      | hidden observers => exact ⟨rfl, h.trans hobs, hnested⟩
      | started k =>
        exact ⟨congrArg (k :: ·) ((Graph.observers_clearDependencies _ k).trans hobs), hnested⟩
      | shown observers =>
        rw [frames_closed h h rfl] at hnested
        exact hnested
      | finished k providers =>
        obtain ⟨depth, computation, start, hc, -⟩ := id h
        rw [frames_closed h hc rfl] at hobs hnested
        exact ⟨congrArg List.tail hobs, hnested⟩
      | _ => exact absurd trivial hp

theorem sound (c : Course) : c.world.graph.Sound := by
  induction c using Course.induction with
  | start => exact Graph.Sound.empty
  | push c ev h ih =>
    rw [world_push]
    cases ev with
    | aside w => exact ih.congr (congrArg Graph.nodes (World.Aside.graph h))
    | tracked s => exact ih.track s
    | started k => exact (ih.clear k).congr rfl
    | effectGone k | signalGone k => exact ih.remove k
    | composing s => simpa [Event.world, World.opened_eq] using ih
    | _ => exact ih.congr rfl

theorem dependencies_eq (c : Course) (e : NodeId) :
    c.world.graph.dependencies e = c.history.sources e := by
  induction c using Course.induction with
  | start => rfl
  | push c ev h ih =>
    rw [world_push, history_push]
    cases ev with
    | aside w =>
      rw [Event.world, World.Aside.graph h]
      exact ih
    | tracked s v =>
      have hobs : c.world.graph.observer? = Frame.observer? c.history.frames :=
        congrArg List.head? (observed c).1
      rw [Event.world]
      -- A read counts for `e` just if `e` observes, and the graph and the frames agree on who does.
      by_cases ho : c.world.graph.observer? = some e
      · rw [Graph.dependencies_track _ e s e ho, if_pos rfl, ih, History.sources, History.sources,
          History.lastReads, if_pos (hobs ▸ ho), List.map_append]
        exact Graph.addOnce_eraseDups s _
      · rw [Graph.dependencies_track_of_ne _ s ho, ih, History.sources, History.sources,
          History.lastReads, if_neg (hobs ▸ ho)]
    | started k =>
      have hclear := Graph.dependencies_clearDependencies c.world.graph e k
      refine Eq.trans hclear ?_
      by_cases he : k = e
      · rw [if_pos he.symm, History.sources, History.lastReads, if_pos he]
        rfl
      · rw [if_neg fun h => he h.symm, ih, History.sources, History.sources, History.lastReads,
          if_neg he]
    | effectGone k | signalGone k =>
      have hremove := (sound c).dependencies_remove k e
      simp only [Event.world, History.sources, History.lastReads]
      by_cases he : e = k
      · subst he
        simpa using hremove
      · have hk : ¬k = e := fun h => he h.symm
        rw [if_neg he, ih] at hremove
        simp only [hremove, hk, if_false, History.sources]
        rw [← Graph.eraseDups_filter, List.filter_map]
        rfl
    | composing s =>
      rw [Event.world, World.opened_eq]
      exact ih
    | _ => exact ih

theorem observers_run {α : Type} {a : Act α} {v : α} {w : World} (ha : c.Runs a)
    (h : c.world.run a = (.ok v, w)) : w.graph.observers = c.world.graph.observers := by
  obtain ⟨d, -, hw, hd⟩ := ha.reached
  rw [h] at hw hd
  obtain rfl : w = d.world := hw
  rw [(observed d).1, (observed c).1, hd v rfl]

/-- Subscriptions are exact. A read is put down to whoever observes it and to nobody else; a run
begins and ends in steps of its own, and a re-entrant one changes nothing; a run and an untracked
evaluation leave the observers as they were. -/
structure Exact (c : Course) : Prop where
  dependencies : ∀ e, c.world.graph.dependencies e = c.history.sources e
  subscribers : ∀ e s, e ∈ c.world.graph.subscribers s ↔ s ∈ c.history.sources e
  read : ∀ e s, Frame.observer? c.frames = some e →
    ∃ d, c ≤ d ∧ c.world.run (track s) = (.ok ⟨⟩, d.world) ∧
      d.history.lastReads e = c.history.lastReads e ++ [(s, c.world.value s)]
  unread : ∀ e s, Frame.observer? c.frames ≠ some e →
    (c.world.graph.track s).dependencies e = c.world.graph.dependencies e
  skipped : ∀ n e x, c.world.effects.get? e = some x → x.running = true →
    c.world.run (runEffect (.ofDepth n) e) = (.ok ⟨⟩, c.world)
  run : ∀ n e x, c.world.effects.get? e = some x → x.running = false →
    ∃ d : Course, .started e n x.providers c.world.providers :: c.history <:+ d.history ∧
      (c.world.run (runEffect (.ofDepth n) e)).2 = d.world ∧
      ((c.world.run (runEffect (.ofDepth n) e)).1 = .ok ⟨⟩ →
        d.history.head? = some (.finished e c.world.providers) ∧
        d.world.graph.observers = c.world.graph.observers)
  untracked : ∀ n body arguments v w,
    c.world.run (untracked ((Host.ofDepth n).call body arguments)) = (.ok v, w) →
      w.graph.observers = c.world.graph.observers

theorem exact (c : Course) : c.Exact where
  dependencies := dependencies_eq c
  subscribers e s := by rw [(sound c).symm, dependencies_eq]
  read e s h := ⟨c.push (.tracked s (c.world.value s)) rfl, le_push _, rfl, if_pos h⟩
  unread e s h := by
    refine Graph.dependencies_track_of_ne _ s ?_
    rwa [show c.world.graph.observer? = Frame.observer? c.frames from
      congrArg List.head? (observed c).1]
  skipped n e x hx hr := by simp [runEffect, World.run_bind, hx, hr]
  run n e x hx hr := by
    have hstarted : c.history.Allows (.started e n x.providers c.world.providers) :=
      ⟨rfl, x, hx, hr, rfl⟩
    obtain ⟨d, hle, -, hw, hd⟩ := exists_finished (lawful_ofDepth n) rfl hx hstarted
    refine ⟨d, hle, hw, fun hok => ?_⟩
    obtain ⟨hframes, hhead⟩ := hd hok
    exact ⟨hhead, by rw [(observed d).1, (observed c).1, hframes]⟩
  untracked n body arguments v w h :=
    observers_run (.untracked fun d _ => (lawful_ofDepth n).call d body arguments) h

end Course

/-- At every point of every run of a program, subscriptions are exact. -/
theorem subscriptions_exact (n : Nat) (program : List Expr) :
    (∃ d : Course, d.Of (.ofDepth n) program) ∧
      ∀ d : Course, d.Of (.ofDepth n) program → ∀ c ≤ d, c.Exact :=
  ⟨Course.exists_of n program, fun _ _ c _ => c.exact⟩

/-- An effect that reads one signal twice and another one untracked in between is subscribed to the
first one, once. -/
theorem subscriptions_exact_untracked :
    let program : List Expr := [
      .create "a" (.signal (.value (.integer 1))),
      .create "b" (.signal (.value (.integer 2))),
      .create "e" (.effect .render (.sequence
        [.on "a" "get" .get, .untrack (.on "b" "get" .get), .on "a" "get" .get]))]
    ∃ d : Course, d.Of (.ofDepth 9) program ∧ (d.world.effects.get? 4).isSome ∧
      d.history.sources 4 = [0] ∧ 4 ∈ d.world.graph.subscribers 0 ∧
      4 ∉ d.world.graph.subscribers 2 := by
  intro program
  obtain ⟨⟨d, hd⟩, hexact⟩ := subscriptions_exact 9 program
  have hd' := hexact d hd d (le_refl d)
  have hsources : d.history.sources 4 = [0] := by
    rw [← hd'.dependencies 4, ← hd.world]
    decide +kernel
  refine ⟨d, hd, ?_, hsources, ?_, ?_⟩
  · rw [← hd.world]
    decide +kernel
  · rw [hd'.subscribers, hsources]
    decide
  · rw [hd'.subscribers, hsources]
    decide

end FineGrain

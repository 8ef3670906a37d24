import FineGrain.Proofs.Course.Subscriptions
/-!
What disposed effects leave behind. Nothing is read for an effect that is gone, except in the rest of a
run in the middle of which it was disposed.
-/

namespace FineGrain

namespace Frame

theorem mem_of_observer {e : NodeId} {fs : List Frame} (h : e ∈ observers fs) :
    ∃ before depth computation start, .effect e before depth computation start ∈ fs := by
  induction fs with
  | nil => cases h
  | cons f rest ih =>
    have hrest (h : e ∈ observers rest) :
        ∃ before depth computation start, .effect e before depth computation start ∈ f :: rest := by
      obtain ⟨before, depth, computation, start, hmem⟩ := ih h
      exact ⟨before, depth, computation, start, List.mem_cons_of_mem _ hmem⟩
    cases f with
    | effect o before depth computation start =>
      rcases List.mem_cons.1 h with rfl | h
      · exact ⟨before, depth, computation, start, List.mem_cons_self⟩
      · exact hrest h
    | untracked _ => cases h
    | _ => exact hrest h

end Frame

namespace Course

variable {c d : Course} {ev : Event} {e : NodeId}

theorem next_mono (hle : c ≤ d) : c.world.next ≤ d.world.next := by
  induction hle using Course.le_induction with
  | start => exact Nat.le_refl _
  | push d ev hev _ ih => exact Nat.le_trans ih (next_le hev)

/-- An effect was made and is not there any more. -/
structure Lost (c : Course) (e : NodeId) : Prop where
  made : e < c.world.next
  absent : c.world.effects.get? e = none

theorem Lost.push (h : c.Lost e) (hev : c.history.Allows ev) : (c.push ev hev).Lost e where
  made := Nat.lt_of_lt_of_le h.made (next_le hev)
  absent := by
    cases hx : (c.push ev hev).world.effects.get? e with
    | none => rfl
    | some x =>
      obtain ⟨y, hy, -⟩ := timing_step hev h.made hx
      cases h.absent.symm.trans hy

theorem Lost.le (h : c.Lost e) (hle : c ≤ d) : d.Lost e := by
  induction hle using Course.le_induction with
  | start => exact h
  | push d ev hev _ ih => exact ih.push hev

/-- An effect is gone, and no run of it is under way. -/
structure Gone (c : Course) (e : NodeId) : Prop where
  made : e < c.world.next
  absent : c.world.effects.get? e = none
  idle : ∀ before depth computation start, .effect e before depth computation start ∉ c.frames

theorem Gone.lost (h : c.Gone e) : c.Lost e := ⟨h.made, h.absent⟩

theorem Gone.push (h : c.Gone e) (hev : c.history.Allows ev) : (c.push ev hev).Gone e where
  made := (h.lost.push hev).made
  absent := (h.lost.push hev).absent
  idle before depth computation start hmem := by
    obtain ⟨_, _, rfl⟩ | hmem | ⟨n, _, ⟨⟩⟩ := (frames_step hev).mem hmem
    · obtain ⟨-, x, hx, -⟩ := hev
      cases h.absent.symm.trans hx
    · exact h.idle before depth computation start hmem

theorem Gone.le (h : c.Gone e) (hle : c ≤ d) : d.Gone e := by
  induction hle using Course.le_induction with
  | start => exact h
  | push d ev hev _ ih => exact ih.push hev

theorem Gone.lastReads_le (h : c.Gone e) (hle : c ≤ d) :
    (d.history.lastReads e).Sublist (c.history.lastReads e) := by
  induction hle using Course.le_induction with
  | start => exact .refl _
  | push d ev hev hle ih =>
    refine List.Sublist.trans ?_ ih
    rw [history_push]
    cases ev with
    | started k =>
      rw [History.lastReads]
      split
      · exact List.nil_sublist _
      · exact .refl _
    | tracked s v =>
      -- No run of it is under way, so no read is one of its own.
      have hnot : Frame.observer? d.history.frames ≠ some e := fun ho => by
        obtain ⟨_, _, _, _, hmem⟩ := Frame.mem_of_observer (List.mem_of_mem_head? ho)
        exact (h.le hle).idle _ _ _ _ hmem
      simp only [History.lastReads, if_neg hnot, List.Sublist.refl]
    | effectGone k | signalGone k =>
      rw [History.lastReads]
      split
      · exact List.nil_sublist _
      · exact List.filter_sublist
    | _ => exact .refl _

/-- An effect that is disposed while no run of it is under way is listed nowhere from then on, and
nothing is listed for it. -/
theorem detached_of_disposed (h : c.history.Allows (.effectGone e))
    (hidle : ∀ before depth computation start, .effect e before depth computation start ∉ c.frames)
    (hle : c.push (.effectGone e) h ≤ d) :
    d.world.graph.dependencies e = [] ∧ ∀ s, e ∉ d.world.graph.subscribers s := by
  obtain ⟨x, hx⟩ := Option.isSome_iff_exists.1 h
  have hgone : (c.push (.effectGone e) h).Gone e :=
    ⟨Nat.lt_of_lt_of_le (effect_lt hx) (next_le h), by simp [Event.world, Store.get?_erase], hidle⟩
  have hreads : d.history.lastReads e = [] := by
    have hsub := hgone.lastReads_le hle
    rw [history_push, History.lastReads, if_pos rfl] at hsub
    exact List.eq_nil_of_sublist_nil hsub
  have hdependencies : d.world.graph.dependencies e = [] := by
    rw [dependencies_eq, History.sources, hreads]
    rfl
  refine ⟨hdependencies, fun s hs => ?_⟩
  rw [(sound d).symm, hdependencies] at hs
  cases hs

end Course

/-- What an effect reads after it has disposed itself subscribes it nonetheless. -/
example :
    (World.empty.run (Program.perform (.ofDepth 9) [
      .create "s" (.signal (.value (.integer 0))),
      .create "e" (.effect .deferred (.sequence [.on "e" "dispose" .dispose, .on "s" "get" .get])),
      .drain])).2.graph.subscribers 0 = [2] := by
  decide +kernel

end FineGrain

import FineGrain.Proofs.Course.Punctual
/-!
What every course keeps: a number is given away once, so a signal has one kind; only a plain signal is
changed in place; and a handle stands for what it was made for.
-/

namespace FineGrain

open Act

namespace World

variable {w : World}

theorem opened_eq (s : Nat) (x : Signal) : w.opened s x =
    { w with
      signals := w.signals.modify s fun y =>
        if x.dirty then { y with cache := none }
        else { y with dirty := true, cache := none, clones := y.clones + 1 }
      tasks := if x.dirty then w.tasks else w.tasks ++ [.commit s] } := by
  unfold opened
  split <;> simp_all

theorem awaiting_one (e : NodeId) : w.awaiting [e] =
    { w with
      graph := { w.graph with pending := Graph.addOnce e w.graph.pending, flushQueued := true }
      tasks := w.tasks ++ if w.graph.flushQueued then [] else [.flush] } := rfl

end World

namespace Course

variable {c d : Course} {ev : Event} {s k : Nat} {kind kind' : Kind}

attribute [local simp] Event.world

theorem next_le (h : c.history.Allows ev) : c.world.next ≤ (ev.world c.world).next := by
  cases ev with
  | aside w => exact World.Aside.next h
  | composing s => simp [World.opened_eq]
  | scheduled e => simp [World.awaiting_one]
  | _ => simp [World.starting, World.committing]

/-- What is noted of a number that is given away, and of no other, is noted of a number of the past. -/
theorem lt_next {p : World → Prop} (hempty : ¬ p .empty)
    (hstep : ∀ (c : Course) (ev : Event), c.history.Allows ev → p (ev.world c.world) →
      k < (ev.world c.world).next ∨ p c.world) (h : p c.world) : k < c.world.next := by
  induction c using Course.induction with
  | start => exact absurd h hempty
  | push c ev hev ih =>
    obtain hnew | hold := hstep c ev hev h
    · exact hnew
    · exact Nat.lt_of_lt_of_le (ih hold) (next_le hev)

theorem made_lt (h : c.history.Made s kind) : s < c.world.next := by
  induction c using Course.induction with
  | start =>
    obtain ⟨v, clones, hm⟩ := h
    cases hm
  | push c ev hev ih =>
    obtain ⟨v, clones, hm⟩ := h
    rcases List.mem_cons.1 hm with rfl | hm
    · obtain rfl : s = c.world.next := hev
      exact Nat.lt_succ_self _
    · exact Nat.lt_of_lt_of_le (ih ⟨v, clones, hm⟩) (next_le hev)

theorem made_unique (h : c.history.Made s kind) (h' : c.history.Made s kind') : kind = kind' := by
  induction c using Course.induction with
  | start =>
    obtain ⟨v, clones, hm⟩ := h
    cases hm
  | push c ev hev ih =>
    obtain ⟨v, clones, hm⟩ := h
    obtain ⟨v', clones', hm'⟩ := h'
    have hnew {k : Kind} {v : Value} {n : Nat} (he : ev = .signalMade s k v n) : s = c.world.next := by
      subst he
      exact hev
    rcases List.mem_cons.1 hm with he | hm <;> rcases List.mem_cons.1 hm' with he' | hm'
    · rw [← he] at he'
      cases he'
      rfl
    · exact absurd (hnew he.symm) (Nat.ne_of_lt (made_lt ⟨v', clones', hm'⟩))
    · exact absurd (hnew he'.symm) (Nat.ne_of_lt (made_lt ⟨v, clones, hm⟩))
    · exact ih ⟨v, clones, hm⟩ ⟨v', clones', hm'⟩

theorem made_of_writing {x : Signal} (h : c.world.signals.get? s = some x) (hx : x.writing = true) :
    c.history.Made s .plain := by
  induction c using Course.induction generalizing x with
  | start => cases h
  | push c ev hev ih =>
    -- A step either begins the change in place, or the signal was being changed before it.
    suffices hold : (∃ depth body, ev = .updating s depth body) ∨
        ∃ y, c.world.signals.get? s = some y ∧ y.writing = true by
      rcases hold with ⟨depth, body, rfl⟩ | ⟨y, hy, hw⟩
      · exact made_mono (le_push hev) hev.1
      · exact made_mono (le_push hev) (ih hy hw)
    rw [world_push] at h
    cases ev with
    | aside w =>
      have hsame := World.Aside.signals hev s
      rw [show w.signals.get? s = some x from h] at hsame
      obtain ⟨y, hy, hxy⟩ := Option.map_eq_some_iff.1 hsame.symm
      exact .inr ⟨y, hy, (congrArg Signal.writing hxy).trans hx⟩
    | signalMade t =>
      rcases Store.of_put h with ⟨-, rfl⟩ | h
      · cases hx
      · exact .inr ⟨x, h, hx⟩
    | signalGone t => exact .inr ⟨x, Store.of_erase h, hx⟩
    | updating t depth body =>
      obtain ⟨y, hy, rfl⟩ := Store.of_modify h
      split at hx
      next hst => exact .inl ⟨depth, body, hst ▸ rfl⟩
      next => exact .inr ⟨y, hy, hx⟩
    | composing t =>
      simp only [Event.world, World.opened_eq] at h
      obtain ⟨y, hy, rfl⟩ := Store.of_modify h
      refine .inr ⟨y, hy, ?_⟩
      split at hx
      · split at hx <;> exact hx
      · exact hx
    | updated t =>
      obtain ⟨y, hy, rfl⟩ := Store.of_modify h
      split at hx
      · cases hx
      · exact .inr ⟨y, hy, hx⟩
    | assigned t | composed t | committed t | lapsed t | refused t =>
      obtain ⟨y, hy, rfl⟩ := Store.of_modify h
      refine .inr ⟨y, hy, ?_⟩
      split at hx <;> exact hx
    | _ => exact .inr ⟨x, h, hx⟩

theorem handle_step (hev : c.history.Allows ev) {y : Held}
    (h : (ev.world c.world).handles.get? k = some y) :
    (∃ number name, ev = .bound number name y.handle) ∨
      ∃ i x, c.world.handles.get? i = some x ∧ y.handle = x.handle := by
  cases ev with
  | aside w => exact .inr ⟨k, World.Aside.handles hev k y h⟩
  | bound number name handle =>
    rcases Store.of_put h with ⟨-, rfl⟩ | h
    · exact .inl ⟨number, name, rfl⟩
    · exact .inr ⟨k, y, h, rfl⟩
  | composing t => exact .inr ⟨k, y, by simpa [World.opened_eq] using h, rfl⟩
  | _ => exact .inr ⟨k, y, h, rfl⟩

theorem handles_fit {y : Held} (h : c.world.handles.get? k = some y) :
    c.history.Fits y.handle := by
  induction c using Course.induction generalizing k y with
  | start => cases h
  | push c ev hev ih =>
    obtain ⟨number, name, rfl⟩ | ⟨i, x, hx, hyx⟩ := handle_step hev h
    · exact fits_mono (le_push hev) hev.2
    · rw [hyx]
      exact fits_mono (le_push hev) (ih hx)

theorem made_of_dispatcher {x : Dispatcher} (h : c.world.dispatchers.get? k = some x) :
    c.history.Made x.signal .state := by
  induction c using Course.induction generalizing k x with
  | start => cases h
  | push c ev hev ih =>
    rw [world_push] at h
    cases ev with
    | aside w =>
      obtain ⟨y, hy, hs, -⟩ := World.Aside.dispatchers hev k x h
      rw [hs]
      exact made_mono (le_push hev) (ih hy)
    | dispatcherMade d s reduce =>
      simp only [Event.world, Store.get?_put] at h
      split at h
      · cases h
        exact made_mono (le_push hev) hev.2
      · exact made_mono (le_push hev) (ih h)
    | composing t => exact made_mono (le_push hev) (ih (by simpa [World.opened_eq] using h))
    | _ => exact made_mono (le_push hev) (ih h)

theorem effect_lt {e : NodeId} {x : Effect} (h : c.world.effects.get? e = some x) :
    e < c.world.next := by
  refine lt_next (p := fun w => ∃ x, w.effects.get? e = some x) (fun ⟨_, h⟩ => by cases h) ?_ ⟨x, h⟩
  rintro c ev hev ⟨x, h⟩
  cases ev with
  | aside w => exact .inr ⟨x, (World.Aside.effects hev ▸ h :)⟩
  | effectMade k | memoMade k | hookMade k =>
    obtain rfl : k = c.world.next := hev
    rcases Store.of_put h with ⟨rfl, -⟩ | h
    · exact .inl (Nat.lt_succ_self _)
    · exact .inr ⟨x, h⟩
  | effectGone k => exact .inr ⟨x, Store.of_erase h⟩
  | started k | finished k =>
    obtain ⟨y, hy, -⟩ := Store.of_modify h
    exact .inr ⟨y, hy⟩
  | composing s => exact .inr ⟨x, by simpa [World.opened_eq] using h⟩
  | _ => exact .inr ⟨x, h⟩

theorem effect_step (hev : c.history.Allows ev) {e : NodeId} {x : Effect}
    (h : (ev.world c.world).effects.get? e = some x) :
    (c.world.next ≤ e ∧ x.running = false ∧ ∀ m, x.computation = .memo m →
      e = m + 1 ∧ ∃ factory ds, ev = .memoMade m factory ds) ∨
    ∃ y, c.world.effects.get? e = some y ∧ x = { y with running := x.running } ∧
      (x.running = y.running ∨
        (x.running = true ∧ ∃ depth providers before, ev = .started e depth providers before) ∨
        ∃ providers, ev = .finished e providers) := by
  -- An effect that is there after a step has just been made, or has started or ended, or is as it
  -- was.
  cases ev with
  | aside w => exact .inr ⟨x, (World.Aside.effects hev ▸ h :), rfl, .inl rfl⟩
  | effectMade k =>
    obtain rfl : k = c.world.next := hev
    rcases Store.of_put h with ⟨rfl, rfl⟩ | h
    · exact .inl ⟨Nat.le_refl _, rfl, nofun⟩
    · exact .inr ⟨x, h, rfl, .inl rfl⟩
  | memoMade k =>
    obtain rfl : k = c.world.next := hev
    rcases Store.of_put h with ⟨rfl, rfl⟩ | h
    · refine .inl ⟨Nat.le_succ _, rfl, ?_⟩
      rintro m ⟨⟩
      exact ⟨rfl, _, _, rfl⟩
    · exact .inr ⟨x, h, rfl, .inl rfl⟩
  | hookMade k =>
    obtain rfl : k = c.world.next := hev
    rcases Store.of_put h with ⟨rfl, rfl⟩ | h
    · exact .inl ⟨Nat.le_succ _, rfl, nofun⟩
    · exact .inr ⟨x, h, rfl, .inl rfl⟩
  | effectGone k => exact .inr ⟨x, Store.of_erase h, rfl, .inl rfl⟩
  | started k depth providers before =>
    obtain ⟨y, hy, rfl⟩ := Store.of_modify h
    refine .inr ⟨y, hy, ?_⟩
    split
    next hk => exact ⟨rfl, .inr (.inl ⟨rfl, depth, providers, before, hk ▸ rfl⟩)⟩
    next => exact ⟨rfl, .inl rfl⟩
  | finished k providers =>
    obtain ⟨y, hy, rfl⟩ := Store.of_modify h
    refine .inr ⟨y, hy, ?_⟩
    split
    next hk => exact ⟨rfl, .inr (.inr ⟨providers, hk ▸ rfl⟩)⟩
    next => exact ⟨rfl, .inl rfl⟩
  | composing s => exact .inr ⟨x, by simpa [World.opened_eq] using h, rfl, .inl rfl⟩
  | _ => exact .inr ⟨x, h, rfl, .inl rfl⟩

theorem timing_step (hev : c.history.Allows ev) {e : NodeId} {x : Effect} (he : e < c.world.next)
    (h : (ev.world c.world).effects.get? e = some x) :
    ∃ y, c.world.effects.get? e = some y ∧ y.timing = x.timing := by
  obtain ⟨hle, -⟩ | ⟨y, hy, hx, -⟩ := effect_step hev h
  · exact absurd he (Nat.not_lt_of_le hle)
  · exact ⟨y, hy, by rw [hx]⟩

theorem timing_stays (hle : c ≤ d) {e : NodeId} {t : Timing} (ht : c.world.timing? e = some t) :
    d.world.timing? e = some t ∨ d.world.timing? e = none := by
  obtain ⟨x, hx, rfl⟩ := Option.map_eq_some_iff.1 ht
  have hstays : e < d.world.next ∧ ∀ y, d.world.effects.get? e = some y → y.timing = x.timing := by
    induction hle using Course.le_induction with
    | start => exact ⟨effect_lt hx, fun y hy => by rw [hx] at hy; cases hy; rfl⟩
    | push d ev hev _ ih =>
      refine ⟨Nat.lt_of_lt_of_le ih.1 (next_le hev), fun y hy => ?_⟩
      obtain ⟨z, hz, hzy⟩ := timing_step hev ih.1 hy
      exact hzy.symm.trans (ih.2 z hz)
  cases hy : d.world.effects.get? e with
  | none => exact .inr (by simp [World.timing?, hy])
  | some y => exact .inl (by simp [World.timing?, hy, hstays.2 y hy])

theorem hook_step (hev : c.history.Allows ev) {k : Nat} {x : HookSlot}
    (hk : k < c.world.next) (hx : c.world.hooks.get? k = some x) :
    ∃ y, (ev.world c.world).hooks.get? k = some y ∧ y.phase = x.phase ∧
      (x.disposed = true → y.disposed = true) := by
  cases ev with
  | aside w => exact ⟨x, (World.Aside.hooks hev ▸ hx :), rfl, id⟩
  | hookMade h =>
    obtain rfl : h = c.world.next := hev
    refine ⟨x, ?_, rfl, id⟩
    rw [Event.world, Store.get?_put, if_neg (Nat.ne_of_lt hk)]
    exact hx
  | jobQueued h | jobBegun h | cleanupBegun h | bodyBegun h | bodyEnded h | hookDisposed h =>
    by_cases hh : k = h
    · subst hh
      simp [Store.get?_modify, hx]
    · simp [Store.get?_modify, hx, hh]
  | composing s => exact ⟨x, by simpa [World.opened_eq] using hx, rfl, id⟩
  | _ => exact ⟨x, hx, rfl, id⟩

theorem hook_lt {k : Nat} {x : HookSlot} (h : c.world.hooks.get? k = some x) : k < c.world.next := by
  refine lt_next (p := fun w => ∃ x, w.hooks.get? k = some x) (fun ⟨_, h⟩ => by cases h) ?_ ⟨x, h⟩
  rintro c ev hev ⟨x, h⟩
  cases ev with
  | aside w => exact .inr ⟨x, (World.Aside.hooks hev ▸ h :)⟩
  | hookMade m =>
    obtain rfl : m = c.world.next := hev
    rcases Store.of_put h with ⟨rfl, -⟩ | h
    · exact .inl (Nat.lt_add_of_pos_right (by omega))
    · exact .inr ⟨x, h⟩
  | jobQueued m | jobBegun m | cleanupBegun m | bodyBegun m | bodyEnded m | hookDisposed m =>
    obtain ⟨y, hy, -⟩ := Store.of_modify h
    exact .inr ⟨y, hy⟩
  | composing s => exact .inr ⟨x, by simpa [World.opened_eq] using h⟩
  | _ => exact .inr ⟨x, h⟩

theorem hook_stays (hle : c ≤ d) {k : Nat} {x : HookSlot} (hx : c.world.hooks.get? k = some x) :
    ∃ y, d.world.hooks.get? k = some y ∧ y.phase = x.phase ∧
      (x.disposed = true → y.disposed = true) := by
  induction hle using Course.le_induction with
  | start => exact ⟨x, hx, rfl, id⟩
  | push d ev hev _ ih =>
    obtain ⟨y, hy, hphase, hdisposed⟩ := ih
    obtain ⟨z, hz, hphase', hdisposed'⟩ := hook_step hev (hook_lt hy) hy
    exact ⟨z, hz, hphase'.trans hphase, fun h => hdisposed' (hdisposed h)⟩

theorem not_writing (h : c.history.Made s .state) :
    ((c.world.signals.get? s).getD default).writing = false := by
  cases hs : c.world.signals.get? s with
  | none => rfl
  | some x =>
    cases hx : x.writing with
    | false => exact hx
    | true => cases made_unique h (made_of_writing hs hx)

end Course

end FineGrain

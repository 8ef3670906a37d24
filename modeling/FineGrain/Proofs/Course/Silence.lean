import FineGrain.Proofs.Course.Disposal
import FineGrain.Proofs.World.Release
/-!
The silence of disposed effects. Numbers of an effect stay behind in lists that its disposal does not
touch: in the queue of tasks, in what waits for a flush, in the batch that a flush works off and among
the subscribers that a change works off. Whatever comes upon them finds that the effect is not there.
-/

namespace FineGrain

open Act

namespace Store

variable {α : Type} {key : Nat} {a : α} {p : Nat × α}

theorem mem_putEntry {l : List (Nat × α)} (h : p ∈ putEntry key a l) : p = (key, a) ∨ p ∈ l := by
  induction l with
  | nil => exact .inl (List.mem_singleton.1 h)
  | cons q rest ih => grind [putEntry]

theorem mem_modify {s : Store α} {f : α → α} (h : p ∈ (s.modify key f).entries) :
    ∃ q ∈ s.entries, p.1 = q.1 ∧ (p.2 = q.2 ∨ p.2 = f q.2) := by
  obtain ⟨⟨k, b⟩, hq, rfl⟩ := List.mem_map.1 h
  refine ⟨(k, b), hq, ?_⟩
  by_cases hk : k = key <;> simp [hk]

end Store

namespace Event

def startsEffect (e : NodeId) : Event → Bool
  | started k _ _ _ => k == e
  | _ => false

end Event

namespace World

/-- An effect goes away with a handle: the handle is the effect's own, or the last part in the memo that
owns it, or the hook's that owns it and is not disposed. -/
def Ends (w : World) (e : NodeId) : Handle → Prop
  | .effect k => k = e ∧ e < w.next
  | .memo m | .callback m => ∃ x, w.memos.get? m = some x ∧ x.owners ≤ 1 ∧ x.effect = e
  | .hook h => ∃ x, w.hooks.get? h = some x ∧ x.disposed = false ∧ x.effect = e
  | _ => False

end World

namespace Course

variable {c d : Course} {ev : Event} {e : NodeId} {host : Host} {l : List NodeId} {m k n : Nat}

theorem memo_effect_lt {x : Memo} (h : c.world.memos.get? m = some x) : x.effect < c.world.next := by
  refine lt_next (p := fun w => ∃ y, w.memos.get? m = some y ∧ y.effect = x.effect)
    (fun ⟨_, h, _⟩ => by cases h) ?_ ⟨x, h, rfl⟩
  rintro c ev hev ⟨y, h, heffect⟩
  rw [← heffect]
  cases ev with
  | aside w =>
    have hsame := World.Aside.memos hev m
    rw [show w.memos.get? m = some y from h] at hsame
    obtain ⟨z, hz, hzy⟩ := Option.map_eq_some_iff.1 hsame.symm
    have heffect := congrArg Memo.effect hzy
    exact .inr ⟨z, hz, heffect⟩
  | memoMade k =>
    rcases Store.of_put h with ⟨-, rfl⟩ | h
    · exact .inl (Nat.lt_succ_self _)
    · exact .inr ⟨y, h, rfl⟩
  | computed k | memoBound k =>
    obtain ⟨z, hz, rfl⟩ := Store.of_modify h
    refine .inr ⟨z, hz, ?_⟩
    split <;> rfl
  | memoGone k => exact .inr ⟨y, Store.of_erase h, rfl⟩
  | composing s => exact .inr ⟨y, by simpa [Event.world, World.opened_eq] using h, rfl⟩
  | _ => exact .inr ⟨y, h, rfl⟩

theorem hook_effect_lt {x : HookSlot} (h : c.world.hooks.get? k = some x) :
    x.effect < c.world.next := by
  refine lt_next (p := fun w => ∃ y, w.hooks.get? k = some y ∧ y.effect = x.effect)
    (fun ⟨_, h, _⟩ => by cases h) ?_ ⟨x, h, rfl⟩
  rintro c ev hev ⟨y, h, heffect⟩
  rw [← heffect]
  cases ev with
  | aside w => exact .inr ⟨y, (World.Aside.hooks hev ▸ h :), rfl⟩
  | hookMade j =>
    rcases Store.of_put h with ⟨-, rfl⟩ | h
    · exact .inl (Nat.lt_succ_self _)
    · exact .inr ⟨y, h, rfl⟩
  | jobQueued j | jobBegun j | cleanupBegun j | bodyBegun j | bodyEnded j | hookDisposed j =>
    obtain ⟨z, hz, rfl⟩ := Store.of_modify h
    refine .inr ⟨z, hz, ?_⟩
    split <;> rfl
  | composing s => exact .inr ⟨y, by simpa [Event.world, World.opened_eq] using h, rfl⟩
  | _ => exact .inr ⟨y, h, rfl⟩

theorem hook_of_effect {a : Nat × Effect} (ha : a ∈ c.world.effects.entries)
    (hk : a.2.computation.hook? = some k) : a.1 = k + 1 := by
  induction c using Course.induction generalizing a with
  | start => cases ha
  | push c ev hev ih =>
    have hmodify {j : Nat} {f : Effect → Effect} (hf : ∀ x, (f x).computation = x.computation)
        (ha : a ∈ (c.world.effects.modify j f).entries) : a.1 = k + 1 := by
      obtain ⟨b, hb, hnumber, hx⟩ := Store.mem_modify ha
      refine hnumber.trans (ih hb ?_)
      obtain hx | hx := hx
      · rwa [← hx]
      · rwa [← hf, ← hx]
    rw [world_push] at ha
    cases ev with
    | aside w => exact ih (World.Aside.effects hev ▸ ha :) hk
    | effectMade j | memoMade j =>
      rcases Store.mem_putEntry ha with rfl | ha
      · cases hk
      · exact ih ha hk
    | hookMade j =>
      rcases Store.mem_putEntry ha with rfl | ha
      · obtain rfl : j = k := Option.some.inj hk
        exact congrArg (· + 1) (show j = c.world.next from hev).symm
      · exact ih ha hk
    | effectGone j => exact ih (List.mem_filter.1 ha).1 hk
    | started j =>
      exact hmodify (f := fun x => { x with running := true }) (fun _ => rfl) ha
    | finished j =>
      exact hmodify (f := fun x => { x with running := false }) (fun _ => rfl) ha
    | composing s => exact ih (by simpa [Event.world, World.opened_eq] using ha) hk
    | _ => exact ih ha hk

theorem separate (c : Course) : c.world.Separate := fun _ ha _ hb _ hka hkb =>
  (hook_of_effect ha hka).trans (hook_of_effect hb hkb).symm

theorem Lost.run_runEffect (h : c.Lost e) : c.world.run (runEffect host e) = (.ok ⟨⟩, c.world) := by
  simp [runEffect, World.run_bind, h.absent]

theorem Leads.runEffect (hh : host.Lawful) (e : NodeId) :
    c.Leads False (runEffect host e) fun _ _ => True := by
  obtain ⟨n, hn⟩ := hh.tower
  cases hx : c.world.effects.get? e with
  | none => exact .of_run (v := ⟨⟩) (by simp [Act.runEffect, World.run_bind, hx]) trivial
  | some x =>
    cases hr : x.running with
    | true => exact .of_run (v := ⟨⟩) (by simp [Act.runEffect, World.run_bind, hx, hr]) trivial
    | false =>
      obtain ⟨d, hle, -, hw, -⟩ := exists_finished hh hn hx ⟨rfl, x, hx, hr, rfl⟩
      exact ⟨d, (le_push _).trans hle, False.elim, hw, fun _ _ => trivial⟩

theorem Lost.run_runEffects (hh : host.Lawful) (h : c.Lost e) (l : List NodeId) :
    c.world.run (runEffects host l) = c.world.run (runEffects host (l.filter (· != e))) := by
  induction l generalizing c with
  | nil => rfl
  | cons k rest ih =>
    by_cases hk : k = e
    · subst hk
      rw [World.run_runEffects_cons h.run_runEffect, ih h]
      simp
    · have hfilter : (k :: rest).filter (· != e) = k :: rest.filter (· != e) := by simp [hk]
      obtain ⟨d, hle, -, hw, -⟩ := Leads.runEffect (c := c) hh k
      rw [hfilter, runEffects, runEffects, World.run_bind, World.run_bind]
      rcases hr : c.world.run (Act.runEffect host k) with ⟨_ | _, w⟩
      · rfl
      · obtain rfl : w = d.world := by rw [← hw, hr]
        exact ih (h.le hle)

theorem Lost.run_sortOut (h : c.Lost e) (l : List NodeId) :
    c.world.run (sortOut l) = c.world.run (sortOut (l.filter (· != e))) := by
  have hpass (t : Timing) : (l.filter (· != e)).filter (fun k => c.world.timing? k == some t) =
      l.filter fun k => c.world.timing? k == some t := by
    rw [List.filter_filter]
    refine List.filter_congr fun k _ => ?_
    by_cases hk : k = e
    · subst hk
      simp [World.timing?, h.absent]
    · simp [hk]
  rw [World.run_sortOut, World.run_sortOut, hpass, hpass]

/-- An effect does not start any more.

* `firstRun`: a task that is its first run does nothing
* `batch`: effects that are run in turn are run as if it were not among them
* `change`: a change is sorted out as if it were not among the subscribers
* `starts`: no step is a start of it -/
structure Silent (c : Course) (e : NodeId) : Prop where
  firstRun : ∀ d, c ≤ d → ∀ n,
    d.world.run (runTask (.ofDepth n) (.firstRun e)) = (.ok ⟨⟩, d.world)
  batch : ∀ d, c ≤ d → ∀ n l, d.world.run (runEffects (.ofDepth n) l) =
    d.world.run (runEffects (.ofDepth n) (l.filter (· != e)))
  change : ∀ d, c ≤ d → ∀ l, d.world.run (sortOut l) = d.world.run (sortOut (l.filter (· != e)))
  starts : ∀ d, c ≤ d →
    d.history.countP (Event.startsEffect e) = c.history.countP (Event.startsEffect e)

theorem Lost.not_started (h : c.Lost e) (hev : c.history.Allows ev) : ev.startsEffect e = false := by
  cases ev with
  | started k =>
    refine beq_eq_false_iff_ne.2 fun hk => ?_
    subst hk
    obtain ⟨-, x, hx, -⟩ := hev
    cases h.absent.symm.trans hx
  | _ => rfl

theorem Lost.silent (h : c.Lost e) : c.Silent e where
  firstRun d hle n := (h.le hle).run_runEffect
  batch d hle n l := (h.le hle).run_runEffects (lawful_ofDepth n) l
  change d hle l := (h.le hle).run_sortOut l
  starts d hle := by
    induction hle using Course.le_induction with
    | start => rfl
    | push d ev hev hle ih =>
      rw [history_push, List.countP_cons, (h.le hle).not_started hev, ih]
      rfl

theorem Silent.le (h : c.Silent e) (hle : c ≤ d) : d.Silent e where
  firstRun b hb := h.firstRun b (hle.trans hb)
  batch b hb := h.batch b (hle.trans hb)
  change b hb := h.change b (hle.trans hb)
  starts b hb := (h.starts b (hle.trans hb)).trans (h.starts d hle).symm

/-- After an act an effect does not start any more. -/
def Silences {α : Type} (c : Course) (a : Act α) (e : NodeId) : Prop :=
  ∃ d, c ≤ d ∧ (c.world.run a).2 = d.world ∧ d.Silent e

theorem silences_giveUp {things : List Owned} (he : e < c.world.next)
    (hgone : (c.world.giveUp things).effects.get? e = none) : c.Silences (giveUp things) e := by
  obtain ⟨d, hle, -, -, -, hw, -⟩ := becomes_giveUpSteps _ c things
  have hw : c.world.giveUp things = d.world := hw.symm
  have hlost : d.Lost e :=
    ⟨Nat.lt_of_lt_of_le he (next_mono hle), hw ▸ hgone⟩
  exact ⟨d, hle, hw, hlost.silent⟩

theorem silences_disposeEffect (he : e < c.world.next) : c.Silences (disposeEffect e) e :=
  silences_giveUp he ((World.released_giveUp (separate c) _).effect List.mem_cons_self)

theorem silences_dropMemo {x : Memo} (hx : c.world.memos.get? m = some x) (hlast : x.owners ≤ 1) :
    c.Silences (giveUp [.memo m]) x.effect := by
  refine silences_giveUp (memo_effect_lt hx) ?_
  cases World.released_giveUp (separate c) [.memo m] with
  | step hrest =>
    refine hrest.effect ?_
    simp [World.dropOne, World.dropMemo, hx, hlast]

theorem Silences.of_step {α : Type} {a b : Act α} (ev : Event) (h : c.history.Allows ev)
    (hrun : c.world.run a = (ev.world c.world).run b) (hb : (c.push ev h).Silences b e) :
    c.Silences a e := by
  obtain ⟨d, hle, hw, hsilent⟩ := hb
  exact ⟨d, (le_push h).trans hle, hrun ▸ hw, hsilent⟩

theorem silences_disposeHook {x : HookSlot} (hx : c.world.hooks.get? k = some x)
    (halive : x.disposed = false) : c.Silences (disposeHook (.ofDepth n) k) x.effect := by
  have hallowed : c.history.Allows (.hookDisposed k) := ⟨x, hx, halive⟩
  refine .of_step (b := do disposeEffect x.effect; runCleanup (.ofDepth n) k) _ hallowed ?_ ?_
  · simp [disposeHook, World.run_bind, hx, halive, modifyHook, Event.world]
  obtain ⟨d, hle, hw, hsilent⟩ := silences_disposeEffect (c := c.push _ hallowed)
    (Nat.lt_of_lt_of_le (hook_effect_lt hx) (next_le hallowed))
  have hrun : (c.push _ hallowed).world.run (disposeEffect x.effect) = (.ok ⟨⟩, d.world) :=
    Prod.ext rfl hw
  obtain ⟨d', hle', hw', -⟩ := (Runs.runCleanup (c := d) (lawful_ofDepth n) k).reached
  refine ⟨d', hle.trans hle', ?_, hsilent.le hle'⟩
  rw [← hw']
  exact congrArg Prod.snd (World.run_bind_ok hrun _)

theorem silences_release {handle : Handle} (h : c.world.Ends e handle) :
    c.Silences (release (.ofDepth n) handle) e := by
  cases handle with
  | effect k =>
    obtain ⟨rfl, he⟩ := h
    exact silences_disposeEffect he
  | memo m | callback m =>
    obtain ⟨x, hx, hlast, rfl⟩ := h
    exact silences_dropMemo hx hlast
  | hook k =>
    obtain ⟨x, hx, halive, rfl⟩ := h
    exact silences_disposeHook hx halive
  | _ => exact h.elim

theorem silences_letGo {held : Held} (hk : c.world.handles.get? k = some held)
    (hlast : held.holders ≤ 1) (h : c.world.Ends e held.handle) :
    c.Silences (letGo (.ofDepth n) k) e := by
  have hallowed : c.history.Allows
      (.aside { c.world with handles := c.world.handles.erase k }) := by
    refine { World.Aside.refl c.world with handles := fun i y hy => ?_ }
    exact ⟨y, Store.of_erase hy, rfl⟩
  refine .of_step (b := release (.ofDepth n) held.handle) _ hallowed ?_ (silences_release ?_)
  · simp [letGo, World.run_bind, hk, hlast, Event.world]
  · cases hh : held.handle <;> rw [hh] at h <;> exact h

/-- What disposes an effect makes it silent.

* `lost`: an effect that was made and is not there does not start any more
* `dispose`: an explicit disposal is total, and silences the effect
* `release`, `letGo`: so does the release of a handle with which the effect goes away, and letting go
  of that handle as the last one that holds it
* `owner`: a memo that goes away, in whatever way, silences its effect -/
structure Disposals (c : Course) : Prop where
  lost : ∀ e, c.Lost e → c.Silent e
  dispose : ∀ e < c.world.next,
    (c.world.run (disposeEffect e)).1 = .ok ⟨⟩ ∧ c.Silences (disposeEffect e) e
  release : ∀ handle e, c.world.Ends e handle → ∀ n, c.Silences (release (.ofDepth n) handle) e
  letGo : ∀ k held e, c.world.handles.get? k = some held → held.holders ≤ 1 →
    c.world.Ends e held.handle → ∀ n, c.Silences (letGo (.ofDepth n) k) e
  owner : ∀ things m x, c.world.memos.get? m = some x →
    (c.world.giveUp things).memos.get? m = none → c.Silences (giveUp things) x.effect

theorem disposals (c : Course) : c.Disposals where
  lost _ h := h.silent
  dispose _ he := ⟨rfl, silences_disposeEffect he⟩
  release _ _ h _ := silences_release h
  letGo _ _ _ hk hlast h _ := silences_letGo hk hlast h
  owner things _ _ hx hgone := silences_giveUp (memo_effect_lt hx)
    ((World.released_giveUp (separate c) things).memo hx hgone)

end Course

/-- At every point of every run of a program, whatever disposes an effect makes it silent. -/
theorem disposed_effects_silent (n : Nat) (program : List Expr) :
    (∃ d : Course, d.Of (.ofDepth n) program) ∧
      ∀ d : Course, d.Of (.ofDepth n) program → ∀ c ≤ d, c.Disposals :=
  ⟨Course.exists_of n program, fun _ _ c _ => Course.disposals c⟩

/-- One effect is dropped before its first run and another one disposed while it waits for a flush. -/
theorem disposed_effects_silent_waiting :
    let program : List Expr := [
      .create "s" (.signal (.value (.integer 0))),
      .create "kept" (.effect .deferred
        (.sequence [.log [.value (.string "kept")], .on "s" "get" .get])),
      .create "waiting" (.effect .deferred
        (.sequence [.log [.value (.string "waiting")], .on "s" "get" .get])),
      .drain,
      .sequence [
        .create "early" (.effect .deferred (.log [.value (.string "early")])),
        .drop "early",
        .on "s" "set" (.set (.value (.integer 1))),
        .on "waiting" "dispose" .dispose,
        .drain]]
    ∃ d : Course, d.Of (.ofDepth 20) program ∧ d.world.log = ["kept"] ∧ d.Silent 4 ∧ d.Silent 6 ∧
      ∀ c ≤ d, c.Disposals := by
  intro program
  obtain ⟨⟨d, hd⟩, hall⟩ := disposed_effects_silent 20 program
  have hdisposals := hall d hd
  have hlost {e : NodeId} (hmade : e < (World.empty.run (Program.perform (.ofDepth 20) program)).2.next)
      (habsent : ((World.empty.run (Program.perform (.ofDepth 20) program)).2.effects.get? e).isNone) :
      d.Silent e := by
    rw [hd.world] at hmade habsent
    exact (hdisposals d (le_refl d)).lost e ⟨hmade, Option.isNone_iff_eq_none.1 habsent⟩
  refine ⟨d, hd, ?_, hlost (by decide +kernel) (by decide +kernel),
    hlost (by decide +kernel) (by decide +kernel), hdisposals⟩
  rw [← hd.world]
  decide +kernel

end FineGrain

import FineGrain.Proofs.Course.Owning
import FineGrain.Proofs.World.Tracking
import FineGrain.World.EffectHook
/-!
Runs of effects, of factories and of hooks, the spreading of changes, and writes to plain signals
follow every course.
-/

namespace FineGrain

open Act

namespace Store

variable {α : Type}

theorem modify_absent {s : Store α} {key : Nat} {f : α → α} (h : s.get? key = none) :
    s.modify key f = s := by
  obtain ⟨entries⟩ := s
  refine modify_eq_self fun a hm => ?_
  induction entries with
  | nil => cases hm
  | cons p rest ih => grind [get?, lookup]

end Store

namespace World

variable {w : World}

theorem hooks_trackSteps (n : Nat) : ∀ (w : World) (seen : List DependencyKey)
    (ds : List Dependency), (w.run (trackSteps n seen ds)).2.hooks = w.hooks := by
  induction n with
  | zero => exact fun _ _ _ => rfl
  | succ n ih =>
    intro w seen ds
    cases ds with
    | nil => rfl
    | cons x rest =>
      rw [trackSteps, run_bind, run_get]
      dsimp only
      cases w.keyOf x with
      | none => exact ih w seen rest
      | some key =>
        dsimp only
        split
        · exact ih w seen rest
        · obtain ⟨graph, signals, log, hone⟩ := trackOne_aside w x
          rw [run_bind]
          rcases hr : w.run (trackOne x) with ⟨_ | _, w'⟩ <;> rw [hr] at hone <;>
            obtain rfl : w' = _ := hone
          · rfl
          · exact ih _ _ _

theorem hooks_trackAll (w : World) (ds : List Dependency) : (w.run (trackAll ds)).2.hooks = w.hooks :=
  hooks_trackSteps _ w [] ds

theorem run_runEffect_starting (host : Host) {e : NodeId} {x : Effect}
    (hx : w.effects.get? e = some x) (hr : x.running = false) :
    w.run (runEffect host e) = (w.starting e x.providers).run (do
      compute host x.computation
      modify fun u => { u with providers := w.providers }
      onGraph (·.popObserver)
      modifyEffect e fun x => { x with running := false }) := by
  simp [runEffect, run_bind, providing, modifyEffect, hx, hr, starting]

end World

namespace Course

variable {α : Type} {p : Prop} {c d : Course} {w : World} {host : Host} {e s m n : Nat} {v : Value}
  {a : Act α} {post : α → Course → Prop} {x : Effect} {providers before : List Provider}

theorem Runs.produce (hh : host.Lawful) (factory : Factory) : c.Runs (produce host factory) := by
  cases factory with
  | compute body => exact .map (hh.call c body [])
  | function body => exact .pure _

theorem Runs.compute_memo (hh : host.Lawful) (hn : host = .ofDepth n) (hx : c.world.effects.get? e = some x)
    (hcomputation : x.computation = .memo m) (h : c.history.Allows (.started e n providers before)) :
    (c.push _ h).Runs (compute host (.memo m)) := by
  refine .get ?_
  cases hm : (c.push _ h).world.memos.get? m with
  | none => exact .pure _
  | some y =>
    have hcomputing : (c.push _ h).history.Allows (.computing m) := by
      rw [History.Allows]
      exact Option.isSome_of_mem hm
    refine Follows.stepNeat (b := Act.produce host y.factory >>= storeComputed m) (.computing m) hcomputing
      trivial (fun hc => hc.place trivial ⟨e, n, providers, before, x, c.history, rfl, hx, hcomputation⟩) rfl ?_
    refine (Follows.answered (Runs.produce hh y.factory)).bind fun next d _ hans => ?_
    obtain ⟨hd, hrun⟩ := hans
    let start := (c.push _ h).world
    have hframes : d.frames = .factory m start :: .effect e before n (.memo m) start :: c.frames := by
      rw [hd, frames_push, frames_started h hx, hcomputation]
      rfl
    have hcompletes : d.history.Completes start
        (Act.produce · ((start.memos.get? m).getD default).factory) next := by
      refine ⟨n, ?_⟩
      rw [show start.memos.get? m = some y from hm]
      exact hn ▸ hrun
    have hstored (hcomputed : d.history.Allows (.computed m next))
        (hstore : d.world.run (storeComputed m next) = (.ok ⟨⟩, (Event.computed m next).world d.world)) :
        d.Follows (storeComputed m next) fun _ u => u.frames = (c.push _ h).frames := by
      refine .stepNeat (b := Pure.pure PUnit.unit) (.computed m next) hcomputed trivial (fun hc => ?_) hstore
        (.pure (congrArg List.tail hd))
      exact hc.place trivial ⟨start, e, before, n, start, _, y, hframes, hm, hn ▸ hrun⟩
    -- The factory may have dropped the memo, or bound it and given it a reader, so the memo is
    -- looked up again.
    cases hm' : d.world.memos.get? m with
    | none =>
      refine hstored ⟨⟨start, head_frames hframes, hcompletes⟩, fun x h => ?_⟩
        (by simp [storeComputed, World.run_bind, hm', Event.world, Store.modify_absent])
      cases hm'.symm.trans h
    | some y =>
      by_cases hy : y.bound = true ∧ y.readers ≠ 0
      · exact .of_run_eq (b := conflict) (by simp [storeComputed, World.run_bind, hm', hy]) .conflict
      · refine hstored ⟨⟨start, head_frames hframes, hcompletes⟩, fun x h => ?_⟩
          (by simp [storeComputed, World.run_bind, hm', hy, Event.world, modifyMemo])
        obtain rfl : y = x := Option.some.inj (hm'.symm.trans h)
        grind

theorem Runs.trackHook (h : Nat) : c.Runs (trackHook h) := by
  refine .get ?_
  cases hx : c.world.hooks.get? h with
  | none => exact .pure _
  | some x =>
    refine (Follows.answered (Runs.trackAll _)).bind fun _ d _ hans => ?_
    obtain ⟨hd, hrun⟩ := hans
    have hsame : d.world.hooks = c.world.hooks := by
      rw [← World.hooks_trackAll c.world (x.dependencies.getD []), hrun]
    cases hq : x.queued with
    | true => exact .pure hd
    | false =>
      refine Follows.mono
        (Runs.step (v := ⟨⟩) (.jobQueued h x.phase) ⟨x, hsame ▸ hx, hq, rfl⟩ trivial rfl ?_)
        fun _ _ _ he => he.trans hd
      cases hp : (d.world.phases.push x.phase h).1 <;>
        simp [World.run_bind, modifyHook, scheduleJob, hp, Event.world]

theorem Runs.compute (hh : host.Lawful) (hn : host = .ofDepth n) (hx : c.world.effects.get? e = some x)
    (h : c.history.Allows (.started e n providers before)) :
    (c.push _ h).Runs (compute host x.computation) := by
  cases hcomputation : x.computation with
  | body code => exact (hh.call _ code []).bind fun _ _ _ _ => .pure _
  | memo m => exact .compute_memo hh hn hx hcomputation h
  | hook h => exact .trackHook h

theorem allows_finished (hx : c.world.effects.get? e = some x)
    (h : c.history.Allows (.started e n providers before)) (hd : d.frames = (c.push _ h).frames)
    (hrun : (c.push _ h).world.run (Act.compute (.ofDepth n) x.computation) = (.ok ⟨⟩, d.world)) :
    d.history.Allows (.finished e before) :=
  ⟨n, x.computation, _, head_frames (hd.trans (frames_started h hx)), hrun⟩

theorem exists_finished (hh : host.Lawful) (hn : host = .ofDepth n) (hx : c.world.effects.get? e = some x)
    (h : c.history.Allows (.started e n x.providers c.world.providers)) :
    ∃ d, c.push _ h ≤ d ∧ (c.Settled → c.history.MayStart e → c.Keeps d) ∧
      (c.world.run (Act.runEffect host e)).2 = d.world ∧
      ((c.world.run (Act.runEffect host e)).1 = .ok ⟨⟩ → d.frames = c.frames ∧
        d.history.head? = some (.finished e c.world.providers)) := by
  have hidle : x.running = false := by
    obtain ⟨-, y, hy, hidle, -⟩ := h
    obtain rfl : x = y := Option.some.inj (hx.symm.trans hy)
    exact hidle
  have hstarts (hs : c.Settled) (hstart : c.history.MayStart e) : c.Keeps (c.push _ h) :=
    ⟨fun hc => hc.push (.ordinary hs hstart), Neat.started⟩
  obtain ⟨d, hle, hkeeps, hw, hans⟩ := Leads.answered (Runs.compute hh hn hx h)
  rw [World.run_runEffect_starting host hx hidle, World.run_bind]
  have hw : ((c.world.starting e x.providers).run (Act.compute host x.computation)).2 = d.world := hw
  -- When the computation fails, the run is never closed, and the course ends with its frame still
  -- open.
  rcases hrun : (c.world.starting e x.providers).run (Act.compute host x.computation) with ⟨_ | _, w⟩
  · rw [hrun] at hw
    refine ⟨d, hle, fun hs hstart => (hstarts hs hstart).trans (hkeeps ?_), hw, nofun⟩
    exact History.Ordinary.settled hstart
  · obtain ⟨⟨hsettled, hd⟩, hanswered⟩ := hans ⟨⟩ (congrArg Prod.fst hrun)
    obtain rfl : w = d.world := by rw [← hw, hrun]
    subst hn
    have hfinished := allows_finished hx h hd hanswered
    have hpopped : (d.push _ hfinished).frames = c.frames := by
      rw [frames_push, Event.frames, hd, frames_started h hx]
      rfl
    refine ⟨d.push _ hfinished, hle.trans (le_push hfinished), fun hs hstart => ?_, rfl,
      fun _ => ⟨hpopped, rfl⟩⟩
    have hset : (c.push _ h).Settled := History.Ordinary.settled hstart
    have hd' := (hstarts hs hstart).trans (hkeeps hset)
    refine ⟨fun hc => (hd'.punctual hc).push (.ordinary (hsettled hset) trivial), fun hc => ?_⟩
    refine (hd'.neat hc).finished fun y m hy hcomputation => ?_
    have hframe := (effects_under_way d).2 e c.world.providers n x.computation (c.push _ h).world
    rw [hd, frames_started h hx] at hframe
    rw [((hframe List.mem_cons_self).2 y hy).2] at hcomputation
    exact born_mono ((le_push h).trans hle) (hc.calm e x m hx hcomputation hidle)

theorem Runs.runEffect (hh : host.Lawful) {e : NodeId} (hs : c.history.MayStart e) :
    c.Runs (runEffect host e) := by
  obtain ⟨n, hn⟩ := hh.tower
  cases hx : c.world.effects.get? e with
  | none => exact .look (v := ⟨⟩) (by simp [Act.runEffect, World.run_bind, hx])
  | some x =>
    cases hr : x.running with
    | true =>
      refine .step (v := ⟨⟩) (.skipped e) ⟨x, hx, hr⟩ trivial rfl ?_
      simp [Act.runEffect, World.run_bind, hx, hr, Event.world]
    | false =>
      obtain ⟨d, hle, hkeeps, hw, hans⟩ := exists_finished hh hn hx ⟨rfl, x, hx, hr, rfl⟩
      refine ⟨d, (le_push _).trans hle, fun hc => hkeeps hc hs, hw, fun _ hv => ?_⟩
      obtain ⟨hframes, hhead⟩ := hans hv
      refine ⟨fun _ ev hev => ?_, hframes⟩
      obtain rfl := Option.some.inj (hhead.symm.trans hev)
      exact id

theorem Runs.runEffects (hh : host.Lawful) {l : List NodeId}
    (hl : ∀ e ∈ l, ∀ d, c ≤ d → d.frames = c.frames → d.history.MayStart e) :
    c.Runs (runEffects host l) := by
  induction l generalizing c with
  | nil => exact .pure _
  | cons e rest ih =>
    refine (Runs.runEffect hh (hl e List.mem_cons_self c (le_refl c) rfl)).bind fun _ d hd hf => ih ?_
    exact fun e he d' hd' hf' => hl e (List.mem_cons_of_mem _ he) d' (hd.trans hd') (hf'.trans hf)

theorem Runs.sortOut (l : List NodeId) : c.Runs (sortOut l) := by
  induction l generalizing c with
  | nil => exact .pure _
  | cons e rest ih =>
    refine .get ?_
    cases hx : c.world.effects.get? e with
    | none => exact ih
    | some x =>
      dsimp only
      cases ht : x.timing with
      | render => exact .map ih
      | deferred =>
        refine Runs.bind (.step (.scheduled e) ?_ trivial rfl (World.run_schedule e)) fun _ _ _ _ => ih
        simp [History.Allows, World.timing?, show c.history.world.effects.get? e = some x from hx, ht]

theorem mayStart_render {e : NodeId} (hle : c ≤ d) (ht : c.world.timing? e = some .render) :
    d.history.MayStart e := by
  intro hdeferred
  have hdeferred : d.world.timing? e = some .deferred := hdeferred
  rcases timing_stays hle ht with h | h <;> rw [h] at hdeferred <;> cases hdeferred

theorem Runs.notify (hh : host.Lawful) (s : NodeId) : c.Runs (notify host s) := by
  refine .get ((Follows.answered (Runs.sortOut _)).bind fun render d hd hans => ?_)
  refine Follows.mono (Runs.runEffects hh fun e he d' hd' _ => ?_) fun _ _ _ hf => hf.trans hans.1
  obtain rfl : _ = render := Except.ok.inj (congrArg Prod.fst ((World.run_sortOut _).symm.trans hans.2))
  exact mayStart_render (hd.trans hd')
    (by simpa using (List.mem_filter.1 (List.mem_mergeSort.1 he)).2)

theorem Leads.flush (hh : host.Lawful) (h : ∃ start, c.frames.head? = some (.task .flush start))
    (hp : p → c.history.head? = some (.taskBegun .flush)) :
    c.Leads p (flush host) fun _ d => (p → d.Settled) ∧ d.frames = c.frames := by
  refine .step .flushed h (fun hp' => .flushed (hp hp')) trivial
    (b := Act.runEffects host c.world.graph.pending) rfl ?_
  refine Follows.leads (fun _ => History.settled_cons id) (Runs.runEffects hh fun e _ d _ hd _ => ?_)
  obtain ⟨start, h⟩ := h
  exact ⟨start, .inl (by rw [show d.history.frames = c.frames from hd]; exact h)⟩

theorem Follows.requireUnborrowed (h : c.world.Writable s → c.Follows a post) :
    c.Follows (do requireUnborrowed s; a) post := by
  by_cases hw : c.world.Writable s
  · refine .of_run_eq ?_ (h hw)
    simp [Act.requireUnborrowed, World.run_bind, hw.1, hw.2]
  · refine .of_run_eq (b := Act.conflict) ?_ .conflict
    have hn : ((c.world.signals.get? s).getD default).writing = true ∨
        ((c.world.signals.get? s).getD default).readers ≠ 0 := by
      unfold World.Writable at hw
      grind
    rw [Act.requireUnborrowed, World.run_bind, World.run_bind]
    rcases hn with hn | hn <;> simp [hn]

theorem Runs.setSignal (hh : host.Lawful) (hs : c.history.Made s .plain) :
    c.Runs (setSignal host s v) := by
  refine Follows.requireUnborrowed fun hw => ?_
  exact Runs.bind (.step (.assigned s v) ⟨hs, hw⟩ trivial rfl rfl) fun _ _ _ _ => .notify hh s

theorem Runs.updateSignal (hh : host.Lawful) (hs : c.history.Made s .plain) (body : Body) :
    c.Runs (updateSignal host s fun v => host.call body [v]) := by
  obtain ⟨n, rfl⟩ := hh.tower
  refine Follows.requireUnborrowed fun hw => ?_
  have hread := World.run_read c.world hw.1
  have hvalue : ((Event.updating s n body).world c.world).value s = c.world.value s := by
    simp only [World.value, Event.world, Store.get?_modify, if_true]
    cases c.world.signals.get? s <;> rfl
  refine Runs.bracket (.updating s n body) (.updating s n body _)
    ((Host.ofDepth n).call body [c.world.value s]) (fun v => do
      modifySignal s fun x => { x with value := v, writing := false }
      Act.notify (.ofDepth n) s) ⟨hs, hw⟩ trivial rfl ?_ (hh.call _ _ _) fun v d hle hd hrun => ?_
  · rw [World.run_bind_ok hread]
    rfl
  · rw [← hvalue] at hrun
    have hupdated : d.history.Allows (.updated s v) :=
      ⟨made_mono hle hs, n, body, _, head_frames hd, hrun⟩
    exact Follows.bind (.close (.updated s v) hupdated trivial hd rfl rfl) fun _ e _ he =>
      Follows.mono (Runs.notify hh s) fun _ _ _ hf => hf.trans he

end Course

end FineGrain

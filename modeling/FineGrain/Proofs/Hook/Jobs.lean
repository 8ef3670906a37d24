import FineGrain.Proofs.Hook.Listening
import FineGrain.World.EffectHook
/-!
The jobs of hooks. A job runs the cleanup that its hook has kept and then the body; code that only
looks leaves everything alone but what is recorded, and the cleanup that the body answers.
-/

namespace FineGrain

open Act Hook

/-- A run of a hook: the world when the cleanup starts, when the body starts and when it is over. -/
structure HookRun where
  hook : Nat
  start : World
  middle : World
  stop : World

namespace World

variable {host : Host} {w w' w'' : World} {s h : Nat} {y : HookSlot} {l l' : List Nat}
  {runs : List HookRun}

/-- The world in which a job has been taken from the queue. -/
def taking (w : World) (h : Nat) (phases : PhaseQueue Nat) : World :=
  { w with
    phases := phases
    hooks := w.hooks.modify h fun y => { y with queued := false } }

/-- The world at the end of a flush of the phases. -/
def flushed (w : World) : World :=
  { w with phases := { w.phases with flushQueued := false } }

end World

/-- The jobs in the queue run one after another, and none joins them meanwhile. The job of a disposed
hook does nothing. -/
inductive JobRuns (host : Host) : World → List HookRun → World → Prop
  | done {w} : w.phases.jobs = [] → JobRuns host w [] w.flushed
  | skip {w w' h phases runs} : w.phases.pop = (some h, phases) →
      (∀ y, w.hooks.get? h = some y → y.disposed = true) →
      JobRuns host (w.taking h phases) runs w' → JobRuns host w runs w'
  | run {w w' y phases r runs} : w.phases.pop = (some r.hook, phases) →
      w.hooks.get? r.hook = some y → y.disposed = false → r.start = w.taking r.hook phases →
      r.start.run (runCleanup host r.hook) = (.ok ⟨⟩, r.middle) →
      r.middle.run (runBody host r.hook) = (.ok ⟨⟩, r.stop) →
      r.stop.phases = phases → JobRuns host r.stop runs w' → JobRuns host w (r :: runs) w'

namespace World

variable {host : Host} {w w' w'' : World} {s h : Nat} {y : HookSlot} {l l' : List Nat}
  {runs : List HookRun} {phases : PhaseQueue Nat}

theorem get?_taking (k : Nat) : (w.taking h phases).hooks.get? k =
    if k = h then (w.hooks.get? k).map fun y => { y with queued := false }
    else w.hooks.get? k :=
  Store.get?_modify ..

theorem run_skip (hy : ∀ y, w.hooks.get? h = some y → y.disposed = true) :
    { w with phases := phases }.run (runHook host h) = (.ok ⟨⟩, w.taking h phases) := by
  cases hg : w.hooks.get? h with
  | none => simp [runHook, modifyHook, run_bind, Store.get?_modify, hg, taking]
  | some y => simp [runHook, modifyHook, run_bind, Store.get?_modify, hg, hy y hg, taking]

theorem run_job {middle stop : World} (hy : w.hooks.get? h = some y) (hlive : y.disposed = false)
    (hcleanup : (w.taking h phases).run (runCleanup host h) = (.ok ⟨⟩, middle))
    (hbody : middle.run (runBody host h) = (.ok ⟨⟩, stop)) :
    { w with phases := phases }.run (runHook host h) = (.ok ⟨⟩, stop) := by
  have hcleanup' : ({ w with
      phases := phases
      hooks := w.hooks.modify h fun y => { y with queued := false } } : World).run
        (runCleanup host h) = (.ok ⟨⟩, middle) := hcleanup
  simp [runHook, modifyHook, run_bind, Store.get?_modify, hy, hlive, hcleanup', hbody]

theorem run_runJobs (hr : JobRuns host w runs w') {n : Nat} (hn : w.phases.jobs.length < n) :
    w.run (runJobs host n) = (.ok ⟨⟩, w') := by
  induction hr generalizing n with
  | @done w hjobs =>
    obtain ⟨n, rfl⟩ : ∃ k, n = k + 1 := ⟨n - 1, by omega⟩
    simp [runJobs, run_bind, PhaseQueue.pop_nil hjobs, flushed]
  | @skip w w' h phases runs hpop hdisposed _ ih =>
    obtain ⟨n, rfl⟩ : ∃ k, n = k + 1 := ⟨n - 1, by omega⟩
    rw [PhaseQueue.jobs_of_pop hpop, List.length_cons] at hn
    have hrest : (w.taking h phases).run (runJobs host n) = (.ok ⟨⟩, w') :=
      ih (show phases.jobs.length < n by omega)
    simp only [runJobs, run_bind, run_get, hpop, run_modify, run_skip hdisposed, hrest]
  | @run w w' y phases r runs hpop hy hlive hstart hcleanup hbody hphases _ ih =>
    obtain ⟨n, rfl⟩ : ∃ k, n = k + 1 := ⟨n - 1, by omega⟩
    rw [PhaseQueue.jobs_of_pop hpop, List.length_cons] at hn
    have hrest : r.stop.run (runJobs host n) = (.ok ⟨⟩, w') := ih (by rw [hphases]; omega)
    rw [hstart] at hcleanup
    simp only [runJobs, run_bind, run_get, hpop, run_modify, run_job hy hlive hcleanup hbody,
      hrest]

/-- A world in which the jobs of the hooks in `l` have been taken, and perhaps run. -/
structure Ran (w w' : World) (l : List Nat) : Prop where
  rest : w' = { w with
    log := w'.log
    refs := w'.refs
    hooks := w'.hooks
    phases := w'.phases }
  others : ∀ h, h ∉ l → w'.hooks.get? h = w.hooks.get? h
  ran : ∀ h y, h ∈ l → w.hooks.get? h = some y →
    ∃ cleanup, w'.hooks.get? h = some { y with queued := false, cleanup := cleanup } ∧
      ∀ c, cleanup = some c → y.onCleanup = some c.body
  absent : ∀ h, w.hooks.get? h = none → w'.hooks.get? h = none

theorem Ran.refl (w : World) : w.Ran w [] where
  rest := rfl
  others := fun _ _ => rfl
  ran := fun _ _ hm => by simp at hm
  absent := fun _ => id

theorem Ran.trans (hr : w.Ran w' l) (hr' : w'.Ran w'' l') : w.Ran w'' (l ++ l') where
  rest := by
    rw [hr'.rest, hr.rest]
  others := fun h hm => by
    simp only [List.mem_append, not_or] at hm
    rw [hr'.others h hm.2, hr.others h hm.1]
  ran := fun h y hm hy => by
    by_cases hml : h ∈ l
    · obtain ⟨c, hc, hbody⟩ := hr.ran h y hml hy
      by_cases hm' : h ∈ l'
      · obtain ⟨c', hc', hbody'⟩ := hr'.ran h _ hm' hc
        exact ⟨c', hc', hbody'⟩
      · exact ⟨c, by rw [hr'.others h hm', hc], hbody⟩
    · have hm' : h ∈ l' := (List.mem_append.1 hm).resolve_left hml
      exact hr'.ran h y hm' (by rw [hr.others h hml, hy])
  absent := fun h hn => hr'.absent h (hr.absent h hn)

theorem Ran.congr (hr : w.Ran w' l) (hl : ∀ h, h ∈ l' ↔ h ∈ l) : w.Ran w' l' where
  rest := hr.rest
  others := fun h hm => hr.others h (mt (hl h).2 hm)
  ran := fun h y hm => hr.ran h y ((hl h).1 hm)
  absent := hr.absent

theorem Ran.hook_of (hr : w.Ran w' l) {y' : HookSlot} (hy' : w'.hooks.get? h = some y') :
    ∃ y queued cleanup, w.hooks.get? h = some y ∧
      y' = { y with queued := queued, cleanup := cleanup } ∧
      (y.cleanup = cleanup ∨ ∀ c, cleanup = some c → y.onCleanup = some c.body) := by
  cases hy : w.hooks.get? h with
  | none => simp [hr.absent h hy] at hy'
  | some y =>
    by_cases hm : h ∈ l
    · obtain ⟨c, hc, hbody⟩ := hr.ran h y hm hy
      obtain rfl : _ = y' := by simpa [hc] using hy'
      exact ⟨y, false, c, rfl, rfl, .inr hbody⟩
    · rw [hr.others h hm, hy] at hy'
      obtain rfl : y = y' := by simpa using hy'
      exact ⟨y, y.queued, y.cleanup, rfl, rfl, .inl rfl⟩

theorem Ran.hook (hr : w.Ran w' l) (hy : w.hooks.get? h = some y) :
    ∃ queued cleanup, w'.hooks.get? h = some { y with queued := queued, cleanup := cleanup } := by
  by_cases hm : h ∈ l
  · obtain ⟨c, hc, _⟩ := hr.ran h y hm hy
    exact ⟨false, c, hc⟩
  · exact ⟨y.queued, y.cleanup, by rw [hr.others h hm, hy]⟩

theorem Ran.idle (hr : w.Ran w' l) (hi : w.Idle) : w'.Idle := by
  rw [hr.rest]
  exact ⟨hi.calm, hi.probes, hi.sound, hi.rest, hi.observers⟩

theorem Ran.quiet (hr : w.Ran w' l) (hq : w.Quiet host) : w'.Quiet host where
  factories := by
    rw [hr.rest]
    exact hq.factories
  bodies := fun h y' hy' => by
    obtain ⟨y, b, c, hy, rfl, _⟩ := hr.hook_of hy'
    rw [hr.rest]
    exact hq.bodies h y hy
  cleanups := fun h y' body hy' => by
    obtain ⟨y, b, c, hy, rfl, _⟩ := hr.hook_of hy'
    rw [hr.rest]
    exact hq.cleanups h y body hy

theorem Ran.wired (hr : w.Ran w' l) (hw : w.Wired) : w'.Wired where
  readers := by
    rw [hr.rest]
    exact hw.readers
  running := fun h y' hy' => by
    obtain ⟨y, b, c, hy, rfl, _⟩ := hr.hook_of hy'
    exact hw.running h y hy
  cleanup := fun h y' k hy' hk => by
    obtain ⟨y, b, c, hy, rfl, hc⟩ := hr.hook_of hy'
    rcases hc with rfl | hc
    · exact hw.cleanup h y k hy hk
    · exact hc k hk
  effects := fun e x hx => by
    have hx' : w.effects.get? e = some x := by
      rw [hr.rest] at hx
      exact hx
    refine (hw.effects e x hx').imp_right ?_
    rintro ⟨h, y, hcomp, ht, hy, he, hlive⟩
    obtain ⟨b, c, hb⟩ := hr.hook hy
    exact ⟨h, _, hcomp, ht, hb, he, hlive⟩
  hooks := fun h y' hy' hlive => by
    obtain ⟨y, b, c, hy, rfl, _⟩ := hr.hook_of hy'
    rw [hr.rest]
    exact hw.hooks h y hy hlive

theorem Ran.taking (hw : w.Wired) (h : Nat) (phases : PhaseQueue Nat) :
    w.Ran (w.taking h phases) [h] where
  rest := rfl
  others := fun k hk => by simp [get?_taking, List.ne_of_not_mem_cons hk]
  ran := fun k y hk hy => by
    obtain rfl : k = h := by simpa using hk
    exact ⟨y.cleanup, by simp [get?_taking, hy], fun c hc => hw.cleanup k y c hy hc⟩
  absent := fun k hk => by simp [get?_taking, hk]

theorem Ran.of_looked {f : HookSlot → HookSlot} {cleanup : Option Cleanup} (hi : w.Idle)
    (hl : { w with hooks := w.hooks.modify h f }.Looked w') (hy : w.hooks.get? h = some y)
    (hf : f y = { y with queued := false, cleanup := cleanup })
    (hc : ∀ c, cleanup = some c → y.onCleanup = some c.body) :
    w.Ran w' [h] ∧ w'.phases = w.phases := by
  obtain ⟨lines, refs, sources, rfl⟩ := hl
  rw [Graph.trackAll_unobserved (by simp [Graph.observer?, hi.observers])]
  refine ⟨⟨rfl, fun k hk => ?_, fun k z hk hz => ?_, fun k hk => ?_⟩, rfl⟩
  · simp [Store.get?_modify, List.ne_of_not_mem_cons hk]
  · obtain rfl : k = h := by simpa using hk
    obtain rfl : y = z := by simpa [hy] using hz
    exact ⟨cleanup, by simp [Store.get?_modify, hy, hf], hc⟩
  · simp [Store.get?_modify, hk]

theorem run_cleanup (hi : w.Idle) (hq : w.Quiet host) (hw : w.Wired)
    (hy : w.hooks.get? h = some y) (hqueued : y.queued = false) :
    ∃ w', w.run (runCleanup host h) = (.ok ⟨⟩, w') ∧ w.Ran w' [h] ∧ w'.phases = w.phases := by
  obtain ⟨phase, body, onCleanup, dependencies, effect, cleanup, providers, queued, disposed,
    running⟩ := y
  obtain rfl : queued = false := hqueued
  cases cleanup with
  | none =>
    refine ⟨w, ?_, ⟨rfl, fun _ _ => rfl, fun k z hk hz => ?_, fun _ => id⟩, rfl⟩
    · simp [runCleanup, run_bind, hy]
    · obtain rfl : k = h := by simpa using hk
      obtain rfl := Option.some.inj (hy.symm.trans hz)
      exact ⟨none, hz, fun c hc => by cases hc⟩
  | some c =>
    have hc : onCleanup = some c.body := hw.cleanup h _ c hy rfl
    let u : World := { w with hooks := w.hooks.modify h fun y => { y with cleanup := none } }
    obtain ⟨v, w', hrun, hl⟩ := hq.cleanups h _ c.body hy hc c.argument u rfl hi.calm hi.probes
    refine ⟨w', ?_, Ran.of_looked hi hl hy rfl fun c hc => by cases hc⟩
    have hrun' : ({ w with
        hooks := w.hooks.modify h fun y => { y with cleanup := none } } : World).run
          (host.call c.body [c.argument]) = (.ok v, w') := hrun
    simp [runCleanup, modifyHook, run_bind, run_map, hy, hrun']

theorem run_body (hi : w.Idle) (hq : w.Quiet host) (hw : w.Wired)
    (hy : w.hooks.get? h = some y) (hqueued : y.queued = false) :
    ∃ w', w.run (runBody host h) = (.ok ⟨⟩, w') ∧ w.Ran w' [h] ∧ w'.phases = w.phases := by
  have hrunning := hw.running h y hy
  let u : World := { w with hooks := w.hooks.modify h fun y => { y with running := true } }
  obtain ⟨v, u', hrun, hl⟩ := hq.bodies h y hy { u with providers := y.providers } rfl hi.calm
    hi.probes
  have hprovide := run_providing (w := u) hrun
  obtain ⟨lines, refs, sources, rfl⟩ := hl
  let f (z : HookSlot) : HookSlot :=
    { z with running := false, cleanup := answered y.onCleanup v }
  -- A body only looks around, so besides the lines and the references only the record of its own
  -- hook differs after it.
  have hlooked : { w with hooks := w.hooks.modify h f }.Looked
      { w with
        hooks := (w.hooks.modify h fun y => { y with running := true }).modify h f
        log := w.log ++ lines
        refs := refs
        graph := sources.foldl Graph.track w.graph } :=
    ⟨lines, refs, sources, by simp [Store.modify_modify, Function.comp_def, f]⟩
  have hkept : ∀ c, answered y.onCleanup v = some c → y.onCleanup = some c.body := by
    intro c hc
    cases hon : y.onCleanup with
    | none => simp [answered, hon] at hc
    | some body =>
      simp only [answered, hon] at hc
      split at hc
      · obtain rfl := Option.some.inj hc
        rfl
      · cases hc
  refine ⟨_, ?_, Ran.of_looked hi hlooked hy ?_ hkept⟩
  · simp only [runBody, modifyHook, run_bind, run_get, hy, hrunning, Bool.false_eq_true, if_false,
      run_modify]
    rw [hprovide]
  · obtain ⟨phase, body, onCleanup, dependencies, effect, cleanup, providers, queued, disposed,
      running⟩ := y
    simp_all [f]

def live (w : World) (h : Nat) : Bool := (w.hooks.get? h).any fun y => !y.disposed

def cleanup? (w : World) (h : Nat) : Option Cleanup := (w.hooks.get? h).bind (·.cleanup)

theorem live_iff : w.live h = true ↔ ∃ y, w.hooks.get? h = some y ∧ y.disposed = false := by
  cases hy : w.hooks.get? h <;> simp [live, hy]

theorem Ran.live (hr : w.Ran w' l) : w'.live = w.live := by
  funext h
  cases hy : w.hooks.get? h with
  | none => simp [World.live, hy, hr.absent h hy]
  | some y =>
    obtain ⟨b, c, hb⟩ := hr.hook hy
    simp [World.live, hy, hb]

theorem Ran.cleanup? (hr : w.Ran w' l) (hm : h ∉ l) : w'.cleanup? h = w.cleanup? h := by
  rw [World.cleanup?, hr.others h hm, World.cleanup?]

/-- The worlds in which the code of a run starts differ from `w` only in what earlier runs have
recorded and in the hooks that they have served; the cleanup is the one kept in `w`. -/
structure Begun (w : World) (r : HookRun) : Prop where
  start : ∃ l, w.Ran r.start l
  middle : ∃ l, w.Ran r.middle l
  cleanup : r.start.cleanup? r.hook = w.cleanup? r.hook

theorem Begun.of_ran {r : HookRun} (hr : w.Ran w' l) (hm : r.hook ∉ l) (hb : w'.Begun r) :
    w.Begun r := by
  obtain ⟨⟨l₁, h₁⟩, ⟨l₂, h₂⟩, hc⟩ := hb
  exact ⟨⟨_, hr.trans h₁⟩, ⟨_, hr.trans h₂⟩, hc.trans (hr.cleanup? hm)⟩

/-- What begins after the jobs of one hook begins after `w`, since that hook has no other job. -/
theorem Begun.of_rest {p : Nat → Bool} {rest : List Nat} (hr : w.Ran w' [h]) (hnot : h ∉ rest)
    (hhooks : runs.map (·.hook) = rest.filter p) (hb : ∀ r ∈ runs, w'.Begun r) :
    ∀ r ∈ runs, w.Begun r := by
  intro r hm
  have hrest : r.hook ∈ rest.filter p := hhooks ▸ List.mem_map_of_mem hm
  have hne : r.hook ≠ h := fun he => hnot (he ▸ (List.mem_filter.1 hrest).1)
  exact (hb r hm).of_ran hr (by simpa using hne)

theorem exists_job (hi : w.Idle) (hq : w.Quiet host) (hw : w.Wired) (phases : PhaseQueue Nat)
    (hy : w.hooks.get? h = some y) : ∃ middle stop,
      (w.taking h phases).run (runCleanup host h) = (.ok ⟨⟩, middle) ∧
      middle.run (runBody host h) = (.ok ⟨⟩, stop) ∧ stop.phases = phases ∧
      w.Begun ⟨h, w.taking h phases, middle, stop⟩ ∧ w.Ran stop [h] := by
  have htaking := Ran.taking hw h phases
  have hi₁ := htaking.idle hi
  have hq₁ := htaking.quiet hq
  have hw₁ := htaking.wired hw
  have hy₁ : (w.taking h phases).hooks.get? h = some { y with queued := false } := by
    simp [get?_taking, hy]
  obtain ⟨middle, hcleanup, hran₂, hphases₂⟩ := run_cleanup hi₁ hq₁ hw₁ hy₁ rfl
  obtain ⟨c, hy₂, _⟩ := hran₂.ran h _ List.mem_cons_self hy₁
  obtain ⟨stop, hbody, hran₃, hphases₃⟩ :=
    run_body (hran₂.idle hi₁) (hran₂.quiet hq₁) (hran₂.wired hw₁) hy₂ rfl
  have hkept : (w.taking h phases).cleanup? h = w.cleanup? h := by simp [cleanup?, hy, hy₁]
  exact ⟨middle, stop, hcleanup, hbody, hphases₃.trans hphases₂,
    ⟨⟨_, htaking⟩, ⟨_, htaking.trans hran₂⟩, hkept⟩,
    ((htaking.trans hran₂).trans hran₃).congr (by simp)⟩

theorem run_jobs (hi : w.Idle) (hq : w.Quiet host) (hw : w.Wired) (hn : w.phases.jobs.Nodup) :
    ∃ runs w', JobRuns host w runs w' ∧ w.Ran w' w.phases.jobs ∧ w'.phases.jobs = [] ∧
      w'.phases.flushQueued = false ∧ runs.map (·.hook) = w.phases.jobs.filter w.live ∧
      ∀ r ∈ runs, w.Begun r := by
  obtain ⟨jobs, hjobs⟩ : ∃ jobs, w.phases.jobs = jobs := ⟨_, rfl⟩
  -- The induction is on the jobs that are left; a job adds none, so the next one finds the rest of them.
  induction jobs generalizing w with
  | nil =>
    refine ⟨[], _, .done hjobs, ?_, hjobs, rfl, by simp [hjobs], by simp⟩
    rw [hjobs]
    exact ⟨rfl, fun _ _ => rfl, fun _ _ hm => by simp at hm, fun _ => id⟩
  | cons h rest ih =>
    rw [hjobs] at hn ⊢
    obtain ⟨hnot, hnodup⟩ := List.nodup_cons.1 hn
    obtain ⟨phases, _, hpop, hrest, _⟩ := PhaseQueue.pop_cons hjobs
    cases hl : w.live h with
    | false =>
      have htaking := Ran.taking hw h phases
      have hrest' : (w.taking h phases).phases.jobs = rest := hrest
      obtain ⟨runs, w', hruns, hran, hdone, hflush, hhooks, hbegun⟩ :=
        ih (htaking.idle hi) (htaking.quiet hq) (htaking.wired hw) (hrest'.symm ▸ hnodup) hrest'
      rw [hrest', htaking.live] at hhooks
      rw [hrest'] at hran
      have hdisposed : ∀ y, w.hooks.get? h = some y → y.disposed = true := by
        intro y hy
        simpa [live, hy] using hl
      refine ⟨runs, w', .skip hpop hdisposed hruns, htaking.trans hran, hdone, hflush, ?_,
        Begun.of_rest htaking hnot hhooks hbegun⟩
      rw [hhooks, List.filter_cons, hl]
      rfl
    | true =>
      obtain ⟨y, hy, hlive⟩ := live_iff.1 hl
      obtain ⟨middle, stop, hcleanup, hbody, hphases, hfirst, hstop⟩ := exists_job hi hq hw phases hy
      have hjobs' : stop.phases.jobs = rest := by rw [hphases, hrest]
      obtain ⟨runs, w', hruns, hran, hdone, hflush, hhooks, hbegun⟩ :=
        ih (hstop.idle hi) (hstop.quiet hq) (hstop.wired hw) (hjobs'.symm ▸ hnodup) hjobs'
      rw [hjobs', hstop.live] at hhooks
      rw [hjobs'] at hran
      refine ⟨⟨h, w.taking h phases, middle, stop⟩ :: runs, w',
        .run hpop hy hlive rfl hcleanup hbody hphases hruns, hstop.trans hran, hdone, hflush, ?_, ?_⟩
      · rw [List.map_cons, hhooks, List.filter_cons, hl]
        rfl
      · intro r hr
        rcases List.mem_cons.1 hr with rfl | hr
        · exact hfirst
        · exact Begun.of_rest hstop hnot hhooks hbegun r hr

end World

end FineGrain

import FineGrain.Proofs.Hook.Batch
import FineGrain.Proofs.Hook.Disposal
import FineGrain.Proofs.Hook.Installing
import FineGrain.Proofs.Program.Factory
/-!
Systems of states, memos and hooks, as programs build them up and drive them. All the code that a
system runs by itself only looks; what is written is written by calls.
-/

namespace FineGrain

open Act Hook

/-- Programs that create states, reducers, memos, callbacks and hooks, share and give up handles,
dispose hooks, write states and let tasks run. -/
inductive HookSystem (host : Host) : World → Prop
  | empty : HookSystem host .empty
  | state {w} (v : Value) : HookSystem host w → HookSystem host (w.run (newState v)).2
  | reducer {w} (v : Value) (reduce : Body) : HookSystem host w →
      HookSystem host (w.run (newReducer v reduce)).2
  | memo {w ds} (factory : Factory) : HookSystem host w →
      (∀ body, factory = .compute body → Looks w.scope (host.call body [])) →
      (∀ d ∈ ds, w.There d) → HookSystem host (w.run (newMemo host factory ds)).2
  | hook {w} (phase : Phase) (body : Body) (onCleanup : Option Body)
      (ds : Option (List Dependency)) : HookSystem host w →
      Looks w.scope (host.call body []) →
      (∀ c, onCleanup = some c → ∀ v, Looks w.scope (host.call c [v])) →
      (∀ d ∈ ds.getD [], w.There d) →
      HookSystem host (w.run (newHook host phase body onCleanup ds)).2
  | dispose {w h y} : HookSystem host w → w.hooks.get? h = some y → y.disposed = false →
      w.Spare (Dependency.allOwned y.list) → HookSystem host (w.run (disposeHook host h)).2
  | retain {w} (o : Owned) : HookSystem host w → HookSystem host (w.retain o)
  | giveUp {w things} : HookSystem host w → w.Spare things → HookSystem host (w.giveUp things)
  | aside {w w' : World} : HookSystem host w →
      w' = { w with
        log := w'.log
        refs := w'.refs
        dispatchers := w'.dispatchers
        providers := w'.providers
        names := w'.names
        handles := w'.handles
        next := w'.next } →
      w.next ≤ w'.next → w'.Quiet host → HookSystem host w'
  | call {w states} {call : Call} : HookSystem host w → (∀ s ∈ states, (w.signals.get? s).isSome) →
      call.Within host w states → HookSystem host (w.run (call.perform host)).2
  | task {w w' t rest} : HookSystem host w → w.tasks = t :: rest →
      { w with tasks := rest }.run (runTask host t) = (.ok ⟨⟩, w') → HookSystem host w'

namespace World

variable {host : Host} {w w' u : World} {s h : Nat} {v : Value} {x : Signal} {y : HookSlot}
  {l : List Nat} {e : NodeId} {rest : List Task} {t : Task} {runs : List HookRun}

theorem Running.empty (host : Host) : Running host .empty := by
  have hget {α : Type} (k : Nat) (a : α) : (Store.empty : Store α).get? k ≠ some a := by
    simp [Store.get?, Store.empty, Store.lookup]
  have hlane (p : Phase) : World.empty.phases.lane p = [] := by cases p <;> rfl
  refine ⟨⟨⟨?_, rfl, Graph.Sound.empty, ?_, rfl⟩, ⟨?_, ?_, ?_⟩, ⟨?_, ?_, ?_, ?_, ?_⟩,
    ⟨fun p h hm => ?_, ?_, fun p => ?_, fun h => absurd rfl h, rfl⟩,
    ⟨fun h => absurd rfl h, rfl, fun e he => ?_⟩, ⟨List.nodup_nil, fun s => ⟨fun hs => ?_, ?_⟩, ?_⟩,
    fun t ht => ?_, ?_⟩, .empty⟩
  · exact fun _ _ h => absurd h (hget _ _)
  · exact fun p hp => by simp [World.empty, Store.empty] at hp
  · exact fun _ _ _ h => absurd h (hget _ _)
  · exact fun _ _ h => absurd h (hget _ _)
  · exact fun _ _ _ h => absurd h (hget _ _)
  · exact fun _ _ h => absurd h (hget _ _)
  · exact fun _ _ h => absurd h (hget _ _)
  · exact fun _ _ _ h => absurd h (hget _ _)
  · exact fun _ _ h => absurd h (hget _ _)
  · exact fun _ _ h => absurd h (hget _ _)
  · simp [hlane] at hm
  · exact fun _ _ h => absurd h (hget _ _)
  · simp [hlane]
  · simp [World.empty, Graph.empty] at he
  · simp [World.empty] at hs
  · rintro ⟨_, h, _⟩
    exact absurd h (hget _ _)
  · exact fun _ _ h => absurd h (hget _ _)
  · simp [World.empty] at ht
  · exact fun _ _ h => absurd h (hget _ _)

theorem Running.drafted {first : List Nat} (hw : w.Running host) (hd : w.Drafted w' first) :
    w'.Running host := by
  refine ⟨hw.orderly.drafted hd, hw.stocked.retained ⟨?_, fun s hs => ?_, fun s _ hs => ?_,
    fun k => ?_, fun e he => ?_, fun k z hz => ?_⟩ (fun e he => ?_) fun e he => ?_⟩
  · exact Nat.le_of_eq (congrArg World.next hd.rest).symm
  · rw [hd.isSome]
    exact hs
  · exact (hd.absent s hs).1
  · have hmemos : w'.memos = w.memos := by rw [hd.rest]
    exact hmemos ▸ w.memos_refl k
  · rw [hd.rest]
    exact he
  · rw [hd.rest] at hz
    exact ⟨z, hz, rfl⟩
  · rw [hd.rest] at he ⊢
    exact hw.stocked.pending e he
  · rw [hd.rest] at he ⊢
    have he' : .firstRun e ∈ w.tasks := by simpa using he
    exact hw.stocked.firstRuns e he'

theorem Running.call {call : Call} {states : List Nat} (hw : w.Running host)
    (hlive : ∀ s ∈ states, (w.signals.get? s).isSome) (hc : call.Within host w states) :
    ∃ w', w.run (call.perform host) = (.ok ⟨⟩, w') ∧ w'.Running host := by
  have hi := hw.orderly.idle
  obtain ⟨s, next, hs, _, hnext, hrun⟩ := run_call hc
  obtain ⟨w', first, hrun', hd, _⟩ := run_write_dirty hs hnext rfl hi.calm hi.probes hi.observers
    hlive
  exact ⟨w', hrun.trans hrun', hw.drafted hd⟩

theorem Stocked.beginning (hs : w.Stocked) (ht : w.tasks = t :: rest) :
    (w.beginning rest).Stocked :=
  ⟨hs.unused, hs.memos, hs.hooks, hs.pending,
    fun e he => hs.firstRuns e (ht ▸ List.mem_cons_of_mem _ he), hs.apart⟩

theorem Stocked.heard {l : List NodeId} (hs : u.Stocked) (hh : u.Heard w' l) : w'.Stocked := by
  refine hs.retained ⟨?_, fun s => ?_, fun s _ => ?_, fun k => ?_, fun e => ?_,
    fun k z hz => ?_⟩ (fun e he => ?_) fun e he => ?_
  · exact Nat.le_of_eq (congrArg World.next hh.rest).symm
  · rw [hh.rest]
    exact id
  · rw [hh.rest]
    exact id
  · have hmemos : w'.memos = u.memos := by rw [hh.rest]
    exact hmemos ▸ u.memos_refl k
  · rw [hh.rest]
    exact id
  · obtain ⟨y, hy, b, rfl⟩ := hh.hook_of hz
    exact ⟨y, hy, rfl⟩
  · rw [hh.pending] at he
    rw [hh.rest]
    exact hs.pending e he
  · have he' : .firstRun e ∈ u.tasks := by rcases hh.tasks with h | h <;> simpa [h] using he
    rw [hh.rest]
    exact hs.firstRuns e he'

theorem Stocked.committed (hs : u.Stocked) (hx : u.signals.get? s = some x)
    (hc : u.Committed w' s x v) : w'.Stocked := by
  have hnext : w'.next = u.next := by rw [hc.rest]
  refine hs.retained ⟨Nat.le_of_eq hnext.symm, fun t ht => ?_, fun t _ ht => ?_, fun k => ?_,
    fun e => ?_, fun k z hz => ?_⟩ (fun e he => ?_) fun e he => ?_
  · rw [hc.get?]
    split
    · rfl
    · exact ht
  · rw [hc.get?]
    split
    · rename_i hts
      simp [hts, hx] at ht
    · exact ht
  · obtain ⟨cache, hk⟩ := hc.spread.memos k
    have hmemos : ((u.committing s v).awaiting (u.waiting s)).memos = u.memos := by
      rw [awaiting_rest]
      rfl
    rw [hmemos] at hk
    cases hz : u.memos.get? k with
    | none => exact ⟨none, false, 0, by simpa [hz] using hk⟩
    | some z => exact ⟨cache, z.bound, z.owners, by simpa [hz] using hk⟩
  · rw [hc.rest]
    exact id
  · rw [hc.rest] at hz
    exact ⟨z, hz, rfl⟩
  · rw [hnext]
    rcases hc.pending.1 he with he | he
    · exact hs.pending e he
    · have htiming : u.timing? e = some .deferred := by simpa using (List.mem_filter.1 he).2
      refine hs.lt_next ?_
      cases heffect : u.effects.get? e <;> simp_all [timing?]
  · have he' : .firstRun e ∈ u.tasks := by rcases hc.tasks with h | h <;> simpa [h] using he
    rw [hnext]
    exact hs.firstRuns e he'

theorem Stocked.ran (hs : u.Stocked) (hr : u.Ran w' l) : w'.Stocked := by
  refine hs.retained ⟨?_, fun s => ?_, fun s _ => ?_, fun k => ?_, fun e => ?_,
    fun k z hz => ?_⟩ (fun e he => ?_) fun e he => ?_
  · exact Nat.le_of_eq (congrArg World.next hr.rest).symm
  · rw [hr.rest]
    exact id
  · rw [hr.rest]
    exact id
  · have hmemos : w'.memos = u.memos := by rw [hr.rest]
    exact hmemos ▸ u.memos_refl k
  · rw [hr.rest]
    exact id
  · obtain ⟨y, b, c, hy, rfl, _⟩ := hr.hook_of hz
    exact ⟨y, hy, rfl⟩
  · rw [hr.rest] at he ⊢
    exact hs.pending e he
  · rw [hr.rest] at he ⊢
    exact hs.firstRuns e he

theorem run_runJobs_exhausted (hr : JobRuns host w runs w') {n : Nat}
    (hn : n ≤ w.phases.jobs.length) :
    (w.run (runJobs host n)).1 = .error .exhausted := by
  induction hr generalizing n with
  | @done w hjobs =>
    obtain rfl : n = 0 := by simpa [hjobs] using hn
    rfl
  | @skip w w' h phases runs hpop hdisposed _ ih =>
    cases n with
    | zero => rfl
    | succ n =>
      rw [PhaseQueue.jobs_of_pop hpop, List.length_cons] at hn
      have hrest := ih (n := n) (show n ≤ phases.jobs.length by omega)
      simp only [runJobs, run_bind, run_get, hpop, run_modify, run_skip hdisposed, hrest]
  | @run w w' y phases r runs hpop hy hlive hstart hcleanup hbody hphases _ ih =>
    cases n with
    | zero => rfl
    | succ n =>
      rw [PhaseQueue.jobs_of_pop hpop, List.length_cons] at hn
      have hrest := ih (n := n) (by rw [hphases]; omega)
      rw [hstart] at hcleanup
      simp only [runJobs, run_bind, run_get, hpop, run_modify, run_job hy hlive hcleanup hbody,
        hrest]

theorem Running.task (hw : w.Running host) (ht : w.tasks = t :: rest)
    (hrun : (w.beginning rest).run (runTask host t) = (.ok ⟨⟩, w')) : w'.Running host := by
  obtain ⟨ho, hs⟩ := hw
  have hbegin := hs.beginning ht
  cases t with
  | flush =>
    obtain ⟨u, hrun', hh, hou⟩ := ho.flush ht
    obtain rfl : u = w' := congrArg Prod.snd ((hrun' host).symm.trans hrun)
    have hunload : (w.beginning rest).unloading.Stocked :=
      ⟨hbegin.unused, hbegin.memos, hbegin.hooks, fun _ he => absurd he List.not_mem_nil, hbegin.firstRuns,
        hbegin.apart⟩
    exact ⟨hou, hunload.heard hh⟩
  | firstRun e =>
    obtain ⟨u, hrun', hh, hou⟩ := ho.firstRun ht
    obtain rfl : u = w' := congrArg Prod.snd ((hrun' host).symm.trans hrun)
    exact ⟨hou, hbegin.heard hh⟩
  | commit s =>
    obtain ⟨x, v, u, hx, _, hrun', hc, hou⟩ := ho.commit ht
    obtain rfl : u = w' :=
      congrArg Prod.snd ((hrun' host fun _ _ _ _ _ => rfl).symm.trans hrun)
    exact ⟨hou, hbegin.committed hx hc⟩
  | phases =>
    obtain ⟨runs, u, hruns, hran, hou, _⟩ := ho.phases ht
    have hlt : (w.beginning rest).phases.jobs.length < host.bound := by
      refine Nat.lt_of_not_le fun hle => ?_
      have hexhausted := run_runJobs_exhausted hruns hle
      rw [runTask] at hrun
      rw [hrun] at hexhausted
      cases hexhausted
    have hrun' := run_runJobs hruns hlt
    obtain rfl : u = w' := congrArg Prod.snd (hrun'.symm.trans hrun)
    exact ⟨hou, hbegin.ran hran⟩
  | body c => exact (ho.tasks (.body c) (by simp [ht])).elim

theorem Running.of_system (h : HookSystem host w) : w.Running host := by
  induction h with
  | empty => exact .empty host
  | state v _ ih => exact ih.state v
  | reducer v reduce _ ih => exact ih.reducer v reduce
  | memo factory _ hq hds ih =>
    obtain ⟨w', hrun, hw'⟩ := ih.memo hq hds
    rw [hrun]
    exact hw'
  | hook phase body onCleanup ds _ hbody hclean hds ih => exact ih.hook hbody hclean hds
  | dispose _ hy hlive hs ih =>
    obtain ⟨w', hrun, hw'⟩ := ih.dispose hy hlive hs
    rw [hrun]
    exact hw'
  | retain o _ ih => exact ih.retain o
  | giveUp _ hs ih => exact ih.giveUpSteps hs (by omega)
  | aside _ hrest hn hq ih => exact ih.aside hrest hn hq
  | call _ hlive hc ih =>
    obtain ⟨w', hrun, hw'⟩ := ih.call hlive hc
    rw [hrun]
    exact hw'
  | task _ ht hrun ih => exact ih.task ht hrun

end World

theorem HookSystem.drain {host : Host} {w w' : World} {n count total : Nat}
    (h : HookSystem host w) (hrun : w.run (drainSteps host n count) = (.ok total, w')) :
    HookSystem host w' ∧ w'.tasks = [] := by
  induction n generalizing w count with
  | zero => simp [drainSteps] at hrun
  | succ n ih =>
    cases ht : w.tasks with
    | nil =>
      obtain rfl : w = w' := by
        simpa [drainSteps, World.run_bind, ht] using congrArg Prod.snd hrun
      exact ⟨h, ht⟩
    | cons t rest =>
      simp only [drainSteps, World.run_bind, World.run_get, ht, World.run_modify] at hrun
      split at hrun
      · rename_i u hstep
        exact ih (h.task ht hstep) hrun
      · simp at hrun

theorem hook_system_batch {host : Host} {w : World} {calls : List Call} {states : List Nat}
    (h : HookSystem host w) (ht : w.tasks = [])
    (hlive : ∀ s ∈ states, (w.signals.get? s).isSome)
    (hcalls : ∀ call ∈ calls, call.Within host w states)
    (hbound : states.length + w.hooks.entries.length + 3 ≤ host.bound) :
    ∃ w₁ written ready runs final,
      w.run (calls.forM (Call.perform host)) = (.ok ⟨⟩, w₁) ∧
      (∀ call ∈ calls, ∀ s, call.Targets w s → s ∈ written) ∧
      (∀ s ∈ written, s ∈ states) ∧
      BatchRuns host w w₁ written ready runs final := by
  have ho := (World.Running.of_system h).orderly
  obtain ⟨w₁, written, hrun, hd, hsub, htargets⟩ := World.run_calls ho.idle hlive hcalls
  have hqueued := ho.queued.drafted hd
  rw [ht] at hqueued
  have hlength : written.length ≤ states.length := hd.nodup.length_le_of_subset hsub
  obtain ⟨ready, runs, final, hbatch⟩ := ho.batch ht hd (by omega)
  refine ⟨w₁, written, ready, runs, final, hrun, fun call hm s hs => ?_, hsub, hbatch⟩
  obtain ⟨x, hx, hdirty⟩ := htargets call hm s hs
  simpa using (hqueued.dirty s).2 ⟨x, hx, hdirty⟩

theorem hook_system_batch_two : ∃ w : World, HookSystem (.ofDepth 12) w ∧ w.tasks = [] ∧
    w.hooks.entries.map (·.1) = [4, 6] ∧
    ∃ w₁ written ready runs final,
      w.run ([.set 0 (.integer 5), .set 0 (.integer 7)].forM (Call.perform (.ofDepth 12))) =
        (.ok ⟨⟩, w₁) ∧
      (∀ call ∈ [.set 0 (.integer 5), .set 0 (.integer 7)], ∀ s, Call.Targets w call s →
        s ∈ written) ∧
      (∀ s ∈ written, s ∈ [0]) ∧ BatchRuns (.ofDepth 12) w w₁ written ready runs final := by
  let host := Host.ofDepth 12
  let noted (line : String) : Expr :=
    .sequence [.log [.value (.string line)], .on "n" "get" .get]
  let names := [("n", 1)]
  let handles : Store Held := ⟨[(1, ⟨.state 0, 1⟩)]⟩
  have hn : Bound (names, handles) "n" (Source.state 0).handle := ⟨by decide, 1, 1, rfl, rfl, by decide⟩
  have hlooks (line : String) (arguments : List Value) :
      Looks (names, handles) (host.call (noted line) arguments) :=
    (readsAs_logging (n := 9) (readsAs_source hn)).looks
  -- A state, a memo of it, a passive hook on the memo and a layout hook on the state, one after
  -- another; a drain runs them for the first time.
  have h₁ := (HookSystem.empty : HookSystem host .empty).state (.integer 1)
  have hquiet : ((World.empty.run (newState (.integer 1))).2.naming names handles 2).Quiet host := by
    have hget {α : Type} (k : Nat) (a : α) : (Store.empty : Store α).get? k ≠ some a := by
      simp [Store.get?, Store.empty, Store.lookup]
    exact ⟨fun _ _ _ h => absurd h (hget _ _), fun _ _ h => absurd h (hget _ _),
      fun _ _ _ h => absurd h (hget _ _)⟩
  have h₂ := (h₁.aside rfl (by decide) hquiet).retain
    (.signal 0)
  have h₃ := @HookSystem.memo host _ [.state 0] (.compute (noted "memo")) h₂
    (fun body hbody => by
      cases hbody
      exact hlooks "memo" [])
    (fun d hd => by
      obtain rfl : d = .state 0 := by simpa using hd
      rfl)
  have h₄ := h₃.hook .passive (noted "passive") (some (noted "cleanup")) (some [.memo 2])
    (hlooks "passive" [])
    (fun c hc v => by
      cases hc
      exact hlooks "cleanup" [v])
    (fun d hd => by
      obtain rfl : d = .memo 2 := by simpa using hd
      exact rfl)
  have h₅ := h₄.hook .layout (noted "layout") none (some [.state 0]) (hlooks "layout" [])
    (fun c hc => by cases hc)
    (fun d hd => by
      obtain rfl : d = .state 0 := by simpa using hd
      exact rfl)
  let drained (u : World) : Bool :=
    (u.run (drain host)).1.toBool && ((u.run (drain host)).2.signals.get? 0).isSome &&
      (u.run (drain host)).2.hooks.entries.map (·.1) == [4, 6]
  obtain ⟨u, hu, hdrained⟩ : ∃ u, HookSystem host u ∧ drained u = true :=
    ⟨_, h₅, by decide +kernel⟩
  obtain ⟨n, w, hrun⟩ : ∃ n w, u.run (drain host) = (.ok n, w) := by
    rcases hr : u.run (drain host) with ⟨_ | n, w⟩
    · simp [drained, hr, Except.toBool] at hdrained
    · exact ⟨n, w, rfl⟩
  obtain ⟨hw, ht⟩ := hu.drain hrun
  obtain ⟨hsignal, hhooks⟩ : (w.signals.get? 0).isSome ∧ w.hooks.entries.map (·.1) = [4, 6] := by
    simpa [drained, hrun, Except.toBool] using hdrained
  have hlength : w.hooks.entries.length = 2 := by
    simpa using congrArg List.length hhooks
  have hstate : ∀ s ∈ [0], (w.signals.get? s).isSome := by
    intro s hs
    obtain rfl : s = 0 := by simpa using hs
    exact hsignal
  refine ⟨w, hw, ht, hhooks, hook_system_batch hw ht hstate (fun call hc => ?_) ?_⟩
  · obtain rfl | rfl : call = .set 0 (.integer 5) ∨ call = .set 0 (.integer 7) := by
      simpa using hc
    · exact List.mem_singleton.2 rfl
    · exact List.mem_singleton.2 rfl
  · rw [hlength]
    decide

end FineGrain

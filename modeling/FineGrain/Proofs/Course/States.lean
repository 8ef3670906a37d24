import FineGrain.Proofs.Course.Hooks
import FineGrain.World.Task
/-!
Writes to states, their commits, and the tasks that a drain runs follow every course.
-/

namespace FineGrain

open Act

namespace World

variable {w : World} {s : Nat}

theorem run_write_opened (hw : ((w.signals.get? s).getD default).writing = false)
    (next : Value → Act Value) :
    w.run (write s next) = (w.opened s ((w.signals.get? s).getD default)).run (do
      let v ← next (pendingValue ((w.signals.get? s).getD default))
      modifySignal s fun x => { x with cache := some v }) := by
  cases hs : w.signals.get? s with
  | some x => exact run_write hs (by simpa [hs] using hw) next
  | none =>
    have hclean : (default : Signal).dirty = false := rfl
    have hempty : (default : Signal).cache = none := rfl
    have hidle : (default : Signal).writing = false := rfl
    simp [write, Act.read, run_bind, hs, hclean, hempty, hidle, opened, pendingValue,
      Store.modify_absent, Act.retain, World.retain]

theorem exists_of_cache {v : Value} (hv : ((w.signals.get? s).getD default).cache = some v) :
    ∃ x, w.signals.get? s = some x := by
  cases hs : w.signals.get? s with
  | none =>
    rw [hs] at hv
    cases hv
  | some x => exact ⟨x, rfl⟩

theorem run_committed {host : Host} {v : Value} {tail : List Task}
    (ht : w.tasks = .commit s :: tail) (hv : ((w.signals.get? s).getD default).cache = some v)
    (hw : w.Writable s) :
    w.run (do modify fun w => { w with tasks := tail }; commit host s) =
      ((Event.committed s v).world w).run (do notify host s; Act.giveUp [.signal s]) := by
  obtain ⟨x, hx⟩ := exists_of_cache hv
  have hv' : x.cache = some v := by simpa [hx] using hv
  obtain ⟨hwriting, hreaders⟩ : x.writing = false ∧ x.readers = 0 := by
    simpa [Writable, hx] using hw
  simp [commit, setSignal, requireUnborrowed, run_bind, Event.world, committing, Store.get?_modify,
    Store.modify_modify, Function.comp_def, hx, hv', hwriting, hreaders, ht]

end World

namespace Course

variable {α : Type} {p : Prop} {c d : Course} {host : Host} {s k : Nat} {v : Value} {t : Task}
  {first : Bool} {rest : List Frame}

theorem Follows.newSignal (kind : Kind) (v : Value) (clones : Nat) :
    c.Follows (newSignal v clones) fun s d => d.frames = c.frames ∧ d.history.Made s kind := by
  have hmade : c.history.Allows (.signalMade c.world.next kind v clones) := rfl
  exact .step (.signalMade c.world.next kind v clones) hmade trivial (b := return c.world.next)
    rfl (.pure ⟨rfl, v, clones, List.mem_cons_self⟩)

theorem Follows.newReducer (v : Value) (reduce : Body) :
    c.Follows (newReducer v reduce) fun p d => d.frames = c.frames ∧ d.history.Made p.1 .state := by
  refine (Follows.newSignal .state v 2).bind fun s d _ hans => ?_
  obtain ⟨hd, hs⟩ := hans
  have hmade : d.history.Allows (.dispatcherMade d.world.next s reduce) := ⟨rfl, hs⟩
  exact .step (.dispatcherMade d.world.next s reduce) hmade trivial (b := return (s, d.world.next))
    rfl (.pure ⟨hd, made_mono (le_push hmade) hs⟩)

theorem Follows.compose (write : Write) (hnext : ∀ v d, c ≤ d → d.Runs (write.next v))
    (h : c.history.Allows (.composing s write first v)) :
    (c.push _ h).Follows (do
        let u ← write.next v
        modifySignal s fun x => { x with cache := some u }) fun _ d => d.frames = c.frames ∧
      ∃ start u, d.history.head? = some (.composed s write start u) := by
  refine (Follows.answered (hnext v _ (le_push h))).bind fun u d _ hans => ?_
  obtain ⟨hd, hrun⟩ := hans
  have hcomposed : d.history.Allows (.composed s write (c.push _ h).world u) :=
    ⟨v, head_frames hd, hrun⟩
  refine .step _ hcomposed trivial (b := return ⟨⟩) rfl (.pure ⟨?_, _, u, rfl⟩)
  rw [frames_push, Event.frames, hd]
  rfl

theorem Runs.write (hs : c.history.Made s .state) (write : Write)
    (hnext : ∀ v d, c ≤ d → d.Runs (write.next v)) : c.Runs (Act.write s write.next) :=
  Follows.step (.composing s write _ _) ⟨hs, rfl, rfl⟩ trivial
    (World.run_write_opened (not_writing hs) write.next) <|
      (Follows.compose write hnext _).mono fun _ _ _ hd => hd.1

theorem Runs.dispatch (hh : host.Lawful) (k : Nat) (action : Value) :
    c.Runs (dispatch host k action) := by
  refine .get ?_
  cases hx : c.world.dispatchers.get? k with
  | none => exact .pure _
  | some x =>
    obtain ⟨n, rfl⟩ := hh.tower
    exact .write (made_of_dispatcher hx) (.dispatch n x.reduce action) fun v d _ => hh.call d _ _

theorem Follows.commit (hh : host.Lawful) {tail : List Task}
    (hn : c.history.Next (.commit s)) (ht : c.world.tasks = .commit s :: tail) :
    c.Follows (do modify fun w => { w with tasks := tail }; commit host s) fun _ d =>
      d.frames = .task (.commit s) { c.world with tasks := c.world.tasks.tail } :: c.frames := by
  cases hv : ((c.world.signals.get? s).getD default).cache with
  | none =>
    refine .step (.lapsed s) ⟨hn, hv⟩ trivial (b := Act.giveUp [.signal s]) ?_
      (Runs.giveUpSignal s)
    simp [Act.commit, World.run_bind, Event.world, hv, ht]
  | some v =>
    by_cases hw : c.world.Writable s
    · refine .step (.committed s v) ⟨hn, hw, hv⟩ trivial (World.run_committed ht hv hw) ?_
      refine Follows.bind (Runs.notify hh s) fun _ d _ hd => ?_
      exact Follows.mono (Runs.giveUpSignal s) fun _ _ _ he => he.trans hd
    · obtain ⟨x, hx⟩ := World.exists_of_cache hv
      have hv' : x.cache = some v := by simpa [hx] using hv
      have hborrowed : x.writing = true ∨ x.readers ≠ 0 := by
        simp only [World.Writable, hx, Option.getD_some] at hw
        grind
      refine .step (.refused s) ⟨hn, hw⟩ trivial (b := Act.conflict) ?_ .conflict
      simp [Act.commit, Act.setSignal, Act.requireUnborrowed, World.run_bind, Event.world,
        Store.get?_modify, hx, hv', hborrowed, ht]

theorem Leads.runTask (hh : host.Lawful) (ht : t.commit? = none)
    (hc : ∃ start, c.frames.head? = some (.task t start))
    (hp : p → c.history.head? = some (.taskBegun t)) :
    c.Leads p (runTask host t) fun _ d =>
      (p → d.history.Due (.taskDone t)) ∧ d.frames = c.frames := by
  have hcode {a : Act Unit} (ha : c.Runs a) (hs : ¬ (Event.taskBegun t).Urgent)
      (hord : ∀ d : Course, d.history.Ordinary (.taskDone t)) : c.Leads p a fun _ d =>
        (p → d.history.Due (.taskDone t)) ∧ d.frames = c.frames := by
    refine (Follows.leads (fun hp' ev hev => ?_) ha).mono fun _ d _ he =>
      ⟨fun hp' => .ordinary (he.1 hp') (hord d), he.2⟩
    obtain rfl : .taskBegun t = ev := Option.some.inj ((hp hp').symm.trans hev)
    exact hs
  cases t with
  | commit s => cases ht
  | flush =>
    exact (Leads.flush hh hc hp).mono fun _ d _ he =>
      ⟨fun hp' => .ordinary (he.1 hp') trivial, he.2⟩
  | firstRun e =>
    obtain ⟨start, hc⟩ := hc
    exact hcode (.runEffect hh fun _ => ⟨start, .inr hc⟩) id fun _ => trivial
  | phases => exact Leads.runJobs hh _ c hc fun hp' => .inl (hp hp')
  | body code => exact hcode (.map (hh.call c code [])) id fun _ => trivial

theorem Follows.task (hh : host.Lawful) {tail : List Task} (hn : c.history.Next t)
    (ht : c.world.tasks = t :: tail) :
    c.Follows (do modify fun w => { w with tasks := tail }; runTask host t) fun _ d =>
      d.history.head? = some (.taskDone t) ∧ d.frames = Frame.count c.frames := by
  obtain ⟨n, rfl⟩ := id hh.tower
  let start : World := { c.world with tasks := c.world.tasks.tail }
  have hrun : c.world.run (do modify fun w => { w with tasks := tail }; Act.runTask (.ofDepth n) t) =
      start.run (Act.runTask (.ofDepth n) t) := by
    simp [World.run_bind, start, ht]
  have hdone {d : Course} (hd : d.frames = .task t start :: c.frames)
      (hend : start.run (Act.runTask (.ofDepth n) t) = (.ok ⟨⟩, d.world))
      (hdue : c.Settled → d.history.Due (.taskDone t)) : ∃ h : d.history.Allows (.taskDone t),
        (c.Settled → d.history.Due (.taskDone t)) ∧
          (Event.taskDone t).world d.world = d.world ∧
            (c.Settled → (d.push (.taskDone t) h).Settled) ∧
              (d.push (.taskDone t) h).history.head? = some (.taskDone t) ∧
                (d.push (.taskDone t) h).frames = Frame.count c.frames :=
    ⟨⟨start, head_frames hd, n, hend⟩, hdue, rfl, fun _ => History.settled_cons id, rfl,
      congrArg Frame.count (congrArg List.tail hd)⟩
  cases hc : t.commit? with
  | some s =>
    cases t with
    | commit s =>
      refine Leads.after (fun _ => .taskDone (.commit s)) (Follows.answered (Follows.commit hh hn ht))
        (fun _ d _ hans => ?_) fun _ _ => trivial
      obtain ⟨hsettled, hd, hend⟩ := hans
      exact hdone hd (hrun.symm.trans hend) fun hs => .ordinary (hsettled hs) trivial
    | _ => cases hc
  | none =>
    refine Leads.after (fun _ => .taskDone t) (Leads.answered (.step (.taskBegun t) ⟨hn, hc⟩
      (fun hs => .begun hs) trivial (b := Act.runTask (.ofDepth n) t) hrun
      (Leads.runTask hh hc ⟨start, rfl⟩ fun _ => rfl))) (fun _ d _ hans => ?_) fun _ _ => trivial
    obtain ⟨⟨hdue, hd⟩, hend⟩ := hans
    exact hdone hd (hrun.symm.trans hend) hdue

theorem Follows.drainSteps (hh : host.Lawful) {start : World} (n : Nat) : ∀ {c : Course} (count : Nat),
    c.frames = .draining count start :: rest →
    c.Follows (drainSteps host n count) fun total d => d.frames = .draining total start :: rest ∧
      d.world.tasks = [] := by
  induction n with
  | zero => exact fun _ _ => .exhausted
  | succ n ih =>
    intro c count hc
    cases ht : c.world.tasks with
    | nil => exact .of_run (v := count) (by simp [Act.drainSteps, World.run_bind, ht]) ⟨hc, ht⟩
    | cons t tail =>
      have hn : c.history.Next t :=
        ⟨by rw [show c.history.world.tasks = t :: tail from ht]; rfl, count, start, head_frames hc⟩
      refine .of_run_eq (b := do
        (do modify fun w => { w with tasks := tail }; Act.runTask host t)
        Act.drainSteps host n (count + 1)) ?_ ?_
      · simp [Act.drainSteps, World.run_bind, ht]
      refine (Follows.task hh hn ht).bind fun _ d _ hd => ih _ ?_
      rw [hd.2, hc]
      rfl

theorem Follows.drain (hh : host.Lawful) :
    c.Follows (drain host) fun _ d => d.frames = c.frames ∧ d.world.tasks = [] := by
  obtain ⟨m, rfl⟩ := id hh.tower
  have hframes : (c.push .draining trivial).frames = .draining 0 c.world :: c.frames := rfl
  refine Follows.step .draining trivial trivial (b := Act.drain (.ofDepth m)) rfl ?_
  refine Follows.of_run_eq (b := Act.drain (.ofDepth m) >>= fun n => Pure.pure n) (by simp) ?_
  refine (Follows.answered (Follows.drainSteps hh (Host.ofDepth m).bound 0 hframes)).bind fun n d _ hans => ?_
  obtain ⟨⟨hd, ht⟩, hend⟩ := hans
  exact .step (.drained n) ⟨⟨c.world, head_frames hd, m, hend⟩, ht⟩ trivial (b := Pure.pure n) rfl
    (.pure ⟨congrArg List.tail hd, ht⟩)

theorem Runs.drain (hh : host.Lawful) : c.Runs (drain host) :=
  Follows.mono (Follows.drain hh) fun _ _ _ hd => hd.1

end Course

end FineGrain

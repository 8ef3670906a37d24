import FineGrain.Proofs.Course.Programs
import Mathlib.Algebra.Ring.Nat
/-!
The task queue. Tasks start in the order in which they were queued, and each of them once, also when
tasks queue further ones or work off the queue themselves. A drain that ends has left nothing in the
queue, and what all drains have counted together are the tasks that are done.
-/

namespace FineGrain

open Act

namespace Event

def ended? : Event → Option Task
  | taskDone t => some t
  | _ => none

/-- What a drain answers that ends with a step. -/
def answered? : Event → Option Nat
  | drained n => some n
  | _ => none

end Event

namespace Frame

def task? : Frame → Option Task
  | .task t _ => some t
  | _ => none

/-- How many tasks a drain that is under way has counted. -/
def counted : Frame → Nat
  | .draining n _ => n
  | _ => 0

variable {fs : List Frame} {t : Task}

theorem task?_eq_some {f : Frame} : f.task? = some t ↔ ∃ start, f = .task t start := by
  cases f <;> simp [task?]

theorem filterMap_count (fs : List Frame) : (count fs).filterMap task? = fs.filterMap task? := by
  unfold count
  split <;> rfl

theorem Stacked.drain_of_task (h : Stacked fs) {start : World} (ht : .task t start ∈ fs) :
    ∃ n start, .draining n start ∈ fs := by
  induction fs with
  | nil => cases ht
  | cons f rest ih =>
    rcases List.mem_cons.1 ht with rfl | ht
    · obtain ⟨n, began, hn⟩ := h.1
      exact ⟨n, began, List.mem_cons_of_mem _ (List.mem_of_head? hn)⟩
    · obtain ⟨n, began, hn⟩ := ih h.tail ht
      exact ⟨n, began, List.mem_cons_of_mem _ hn⟩

theorem sum_count {start : World} (h : Stacked (.task t start :: fs)) :
    ((count fs).map counted).sum = (fs.map counted).sum + 1 := by
  obtain ⟨n, began, hn⟩ := h.1
  obtain ⟨rest, rfl⟩ := List.head?_eq_some_iff.1 hn
  simp only [count, List.map_cons, counted, List.sum_cons]
  omega

end Frame

namespace History

def tasksQueued : History → List Task
  | [] => []
  | ev :: h => tasksQueued h ++ ev.added (world h)

def tasksStarted : History → List Task
  | [] => []
  | ev :: h => tasksStarted h ++ ev.taken

def tasksEnded (h : History) : List Task := h.filterMap Event.ended?

def drainCounts (h : History) : List Nat := h.filterMap Event.answered?

end History

namespace Course

variable {c d : Course} {ev : Event} {t : Task} {n : Nat}

theorem tasksQueued_eq (c : Course) :
    c.history.tasksQueued = c.history.tasksStarted ++ c.world.tasks := by
  induction c using Course.induction with
  | start => rfl
  | push c ev h ih =>
    calc (c.push ev h).history.tasksQueued
        = c.history.tasksStarted ++ (c.world.tasks ++ ev.added c.world) := by
          rw [history_push, History.tasksQueued, ih, List.append_assoc]
          rfl
      _ = (c.push ev h).history.tasksStarted ++ (c.push ev h).world.tasks := by
          rw [tasks_step h, ← List.append_assoc]
          rfl

theorem tasksEnded_push (h : c.history.Allows ev) (hdone : ∀ t, ev ≠ .taskDone t) :
    (c.push ev h).history.tasksEnded = c.history.tasksEnded := by
  refine List.filterMap_cons_none ?_
  cases ev with
  | taskDone t => exact absurd rfl (hdone t)
  | _ => rfl

theorem drainCounts_push (h : c.history.Allows ev) (hdrained : ∀ n, ev ≠ .drained n) :
    (c.push ev h).history.drainCounts = c.history.drainCounts := by
  refine List.filterMap_cons_none ?_
  cases ev with
  | drained n => exact absurd rfl (hdrained n)
  | _ => rfl

theorem task_frames_push (h : c.history.Allows ev) (hdone : ∀ t, ev ≠ .taskDone t) :
    (c.push ev h).frames.filterMap Frame.task? = ev.taken ++ c.frames.filterMap Frame.task? := by
  have htakes {t : Task} {start : World} (hframes : (c.push ev h).frames = .task t start :: c.frames) :
      (c.push ev h).frames.filterMap Frame.task? = [t] ++ c.frames.filterMap Frame.task? := by
    rw [hframes, List.filterMap_cons_some (Frame.task?_eq_some.2 ⟨start, rfl⟩)]
    rfl
  by_cases htaken : ev.taken = []
  · rw [htaken, List.nil_append]
    refine (frames_step h).read_eq (r := List.filterMap Frame.task?) (fun f fs hby => ?_)
      fun t _ fs hev => absurd hev (hdone t)
    refine List.filterMap_cons_none (Option.eq_none_iff_forall_ne_some.2 fun t ht => ?_)
    obtain ⟨start, rfl⟩ := Frame.task?_eq_some.1 ht
    obtain hby | hby := hby
    · cases htaken.symm.trans hby
    · exact hby
  · cases ev with
    | taskBegun t => exact htakes rfl
    | committed s | lapsed s | refused s => exact htakes (t := .commit s) rfl
    | _ => exact absurd rfl htaken

theorem tasksStarted_perm (c : Course) :
    c.history.tasksStarted.Perm (c.history.tasksEnded ++ c.frames.filterMap Frame.task?) := by
  induction c using Course.induction with
  | start => exact .nil
  | push c ev h ih =>
    have hstarted : (c.push ev h).history.tasksStarted = c.history.tasksStarted ++ ev.taken := rfl
    rw [hstarted]
    -- A task moves from the frames to those that are done, or from the queue to the frames.
    by_cases hdone : ∃ t, ev = .taskDone t
    · obtain ⟨t, rfl⟩ := hdone
      obtain ⟨start, rest, hrest, hcount⟩ := frames_taskDone h
      have hended : (c.push (.taskDone t) h).history.tasksEnded = t :: c.history.tasksEnded := rfl
      have htaken : (Event.taskDone t).taken = [] := rfl
      rw [hrest] at ih
      rw [hcount, Frame.filterMap_count, hended, htaken, List.append_nil]
      exact ih.trans List.perm_middle
    · have hdone (t : Task) : ev ≠ .taskDone t := fun hev => hdone ⟨t, hev⟩
      rw [tasksEnded_push h hdone, task_frames_push h hdone]
      refine (ih.append_right ev.taken).trans ?_
      rw [List.append_assoc]
      exact List.Perm.append_left _ List.perm_append_comm

theorem counted_frames_push (h : c.history.Allows ev) (hdone : ∀ t, ev ≠ .taskDone t)
    (hdrained : ∀ n, ev ≠ .drained n) :
    ((c.push ev h).frames.map Frame.counted).sum = (c.frames.map Frame.counted).sum := by
  by_cases hdraining : ev = .draining
  · subst hdraining
    exact Nat.zero_add _
  · refine (frames_step h).read_eq (r := fun fs => (fs.map Frame.counted).sum) (fun f fs hby => ?_)
      fun t _ fs hev => absurd hev (hdone t)
    have hzero : f.counted = 0 := by
      cases f with
      | draining n start => exact hby.elim (fun hev => absurd hev hdraining) fun hev => absurd hev (hdrained n)
      | _ => rfl
    rw [List.map_cons, List.sum_cons, hzero, Nat.zero_add]

theorem drainCounts_sum (hc : c.Punctual) :
    c.history.drainCounts.sum + (c.frames.map Frame.counted).sum = c.history.tasksEnded.length := by
  refine punctual_induction (motive := fun c =>
    c.history.drainCounts.sum + (c.frames.map Frame.counted).sum = c.history.tasksEnded.length)
    rfl ?_ hc
  intro c ev h hp _ ih
  -- The count moves: from a task to the drain around it, and from there to what the drain answers.
  by_cases hdone : ∃ t, ev = .taskDone t
  · obtain ⟨t, rfl⟩ := hdone
    obtain ⟨start, rest, hrest, hcount⟩ := frames_taskDone h
    have hstacked := stacked hp
    have hended : (c.push (.taskDone t) h).history.tasksEnded = t :: c.history.tasksEnded := rfl
    have hcounts : (c.push (.taskDone t) h).history.drainCounts = c.history.drainCounts := rfl
    rw [hrest] at ih hstacked
    rw [hcount, Frame.sum_count hstacked, hended, hcounts, List.length_cons, ← ih]
    simp [Frame.counted, Nat.add_assoc]
  have hdone (t : Task) : ev ≠ .taskDone t := fun hev => hdone ⟨t, hev⟩
  rw [tasksEnded_push h hdone]
  by_cases hdrained : ∃ n, ev = .drained n
  · obtain ⟨n, rfl⟩ := hdrained
    have hcounts : (c.push (.drained n) h).history.drainCounts = n :: c.history.drainCounts := rfl
    obtain ⟨⟨start, hhead, -⟩, -⟩ := id h
    rw [frames_closed h hhead rfl, List.map_cons, List.sum_cons, Frame.counted] at ih
    rw [hcounts, List.sum_cons, ← ih]
    omega
  · have hdrained (n : Nat) : ev ≠ .drained n := fun hev => hdrained ⟨n, hev⟩
    rw [drainCounts_push h hdrained, counted_frames_push h hdone hdrained, ih]

theorem Leads.drain (m : Nat) :
    (c.push .draining trivial).Leads c.Settled (Act.drain (.ofDepth m)) fun n d =>
      d.history.head? = some (.drained n) ∧ d.frames = c.frames ∧ d.world.tasks = [] := by
  have hsettled (_ : c.Settled) : (c.push .draining trivial).Settled := History.settled_cons id
  have hsteps : (c.push .draining trivial).Follows (Act.drain (.ofDepth m)) fun n d =>
      d.frames = .draining n c.world :: c.frames ∧ d.world.tasks = [] :=
    Follows.drainSteps (lawful_ofDepth m) (Host.ofDepth m).bound 0 rfl
  refine Leads.after (fun n => .drained n) (Follows.leads hsettled (Follows.answered hsteps))
    (fun n d _ hans => ?_) fun _ _ => trivial
  obtain ⟨hs, ⟨hframes, htasks⟩, hend⟩ := hans
  exact ⟨⟨⟨c.world, head_frames hframes, m, hend⟩, htasks⟩, fun hp => .ordinary (hs hp) trivial, rfl,
    rfl, congrArg List.tail hframes, htasks⟩

/-- From the beginning of a drain to its end the counts of all drains add up to the tasks that are
done meanwhile. -/
theorem counts_between {steps : History} (hc : c.Punctual) (hd : d.Punctual)
    (hsteps : d.history = steps ++ c.history) (hframes : d.frames = c.frames) :
    steps.drainCounts.sum = steps.tasksEnded.length := by
  have hbefore := drainCounts_sum hc
  have hafter := drainCounts_sum hd
  rw [hframes, hsteps, History.drainCounts, History.tasksEnded, List.filterMap_append,
    List.filterMap_append, List.sum_append, List.length_append] at hafter
  simp only [History.drainCounts, History.tasksEnded] at hbefore ⊢
  omega

theorem tasksQueued_mono (hle : c ≤ d) : c.history.tasksQueued <+: d.history.tasksQueued := by
  induction hle using Course.le_induction with
  | start => exact List.prefix_refl _
  | push e ev h _ ih => exact ih.trans (List.prefix_append _ _)

theorem started_next {tail : List Task} (hle : c ≤ d) (ht : c.world.tasks = t :: tail)
    (hlt : c.history.tasksStarted.length < d.history.tasksStarted.length) :
    c.history.tasksStarted ++ [t] <+: d.history.tasksStarted := by
  have hfirst : c.history.tasksStarted ++ [t] <+: d.history.tasksQueued := by
    refine List.IsPrefix.trans ?_ (tasksQueued_mono hle)
    rw [tasksQueued_eq, ht]
    exact ⟨tail, by simp⟩
  refine List.prefix_of_prefix_length_le hfirst ?_ (by simpa using Nat.succ_le_of_lt hlt)
  rw [tasksQueued_eq]
  exact List.prefix_append _ _

theorem length_tasksStarted (hle : c ≤ d) {start : World}
    (hn : c.frames.head? = some (.draining n start)) (hhead : d.history.head? = some (.taskDone t))
    (hframes : d.frames = Frame.count c.frames) :
    c.history.tasksStarted.length < d.history.tasksStarted.length := by
  obtain ⟨rest, hrest⟩ := List.head?_eq_some_iff.1 hn
  obtain ⟨g, hg⟩ := List.head?_eq_some_iff.1 hhead
  have hended : c.history.tasksEnded.length < d.history.tasksEnded.length := by
    have hlater : d.history.tasksEnded = t :: History.tasksEnded g := by
      rw [hg]
      rfl
    rw [hlater]
    rcases List.suffix_cons_iff.1 (hg ▸ hle : c.history <:+ .taskDone t :: g) with heq | hsuffix
    · have hsame : c.frames = d.frames := congrArg History.frames (heq.trans hg.symm)
      rw [hframes, hrest] at hsame
      simp [Frame.count] at hsame
    · exact Nat.lt_succ_of_le (hsuffix.sublist.filterMap _).length_le
  have hbefore := (tasksStarted_perm c).length_eq
  have hafter := (tasksStarted_perm d).length_eq
  rw [hframes, Frame.filterMap_count, List.length_append] at hafter
  rw [List.length_append] at hbefore
  omega

theorem exists_task (hc : c.Punctual) (hs : c.Settled) (hn : c.history.Next t) (m : Nat) :
    ∃ d : Course, c ≤ d ∧ d.Punctual ∧
      ({ c.world with tasks := c.world.tasks.tail }.run (runTask (.ofDepth m) t)).2 = d.world ∧
      (({ c.world with tasks := c.world.tasks.tail }.run (runTask (.ofDepth m) t)).1 = .ok ⟨⟩ →
        c.history.tasksStarted ++ [t] <+: d.history.tasksStarted ∧
          d.history.head? = some (.taskDone t) ∧ d.frames = Frame.count c.frames) := by
  obtain ⟨tail, htail⟩ := List.head?_eq_some_iff.1 hn.1
  obtain ⟨n, start, hframe⟩ := hn.2
  obtain ⟨d, hle, hd, hw, hans⟩ := Follows.task (lawful_ofDepth m) hn htail
  have hrun : c.world.run (do modify fun w => { w with tasks := tail }; runTask (.ofDepth m) t) =
      { c.world with tasks := c.world.tasks.tail }.run (runTask (.ofDepth m) t) := by
    rw [show c.world.tasks = t :: tail from htail]
    simp [World.run_bind]
  rw [hrun] at hw hans
  refine ⟨d, hle, (hd hs).punctual hc, hw, fun hok => ?_⟩
  obtain ⟨-, hhead, hframes⟩ := hans ⟨⟩ hok
  exact ⟨started_next hle htail (length_tasksStarted hle hframe hhead hframes), hhead, hframes⟩

theorem drainCounts_outside (hc : c.Punctual) (hout : ∀ n start, .draining n start ∉ c.frames) :
    c.history.drainCounts.sum = c.history.tasksStarted.length := by
  have htasks : c.frames.filterMap Frame.task? = [] := by
    refine List.filterMap_eq_nil_iff.2 fun f hf => Option.eq_none_iff_forall_ne_some.2 fun t ht => ?_
    obtain ⟨start, rfl⟩ := Frame.task?_eq_some.1 ht
    obtain ⟨n, began, hn⟩ := (stacked hc).drain_of_task hf
    exact hout n began hn
  have hcounted : (c.frames.map Frame.counted).sum = 0 := by
    refine List.sum_eq_zero_iff_forall_eq_nat.2 fun k hk => ?_
    obtain ⟨f, hf, rfl⟩ := List.mem_map.1 hk
    cases f with
    | draining n start => exact absurd hf (hout n start)
    | _ => rfl
  have hlength := (tasksStarted_perm c).length_eq
  have hcounts := drainCounts_sum hc
  rw [htasks, List.append_nil] at hlength
  omega

/-- Tasks run first in, first out, and each once.

* `order`: those that have started are the first ones of those that were queued, in the same order, and
  the others wait
* `once`: each that has started is done or under way, and none twice
* `counts`, `total`: those that are done were counted, each once, by the drains that have ended and by
  those under way
* `task`: when the turn of a task comes, it is the next one that starts; its code runs, until the drain
  counts it
* `left`, `drain`: a drain that ends has left nothing in the queue, and while it was under way the
  counts of all drains, its own and those nested in it, are as many as the tasks that were done -/
structure FirstInFirstOut (c : Course) : Prop where
  order : c.history.tasksQueued = c.history.tasksStarted ++ c.world.tasks
  once : c.history.tasksStarted.Perm (c.history.tasksEnded ++ c.frames.filterMap Frame.task?)
  counts : c.history.drainCounts.sum + (c.frames.map Frame.counted).sum =
    c.history.tasksEnded.length
  total : (∀ n start, .draining n start ∉ c.frames) →
    c.history.drainCounts.sum = c.history.tasksStarted.length
  task : c.Settled → ∀ m t, c.history.Next t → ∃ d : Course, c ≤ d ∧ d.Punctual ∧
    ({ c.world with tasks := c.world.tasks.tail }.run (runTask (.ofDepth m) t)).2 = d.world ∧
    (({ c.world with tasks := c.world.tasks.tail }.run (runTask (.ofDepth m) t)).1 = .ok ⟨⟩ →
      c.history.tasksStarted ++ [t] <+: d.history.tasksStarted ∧
        d.history.head? = some (.taskDone t) ∧ d.frames = Frame.count c.frames)
  left : ∀ n, c.history.head? = some (.drained n) → c.world.tasks = []
  drain : c.Settled → ∀ m, ∃ (d : Course) (steps : History),
    d.history = steps ++ .draining :: c.history ∧ d.Punctual ∧
    (c.world.run (Act.drain (.ofDepth m))).2 = d.world ∧
    ∀ n, (c.world.run (Act.drain (.ofDepth m))).1 = .ok n →
      d.history.head? = some (.drained n) ∧ d.frames = c.frames ∧ d.world.tasks = [] ∧
        steps.drainCounts.sum = steps.tasksEnded.length

theorem left_empty (hhead : c.history.head? = some (.drained n)) : c.world.tasks = [] := by
  obtain ⟨g, hg⟩ := List.head?_eq_some_iff.1 hhead
  obtain ⟨b, h, rfl⟩ := exists_push hg
  exact h.2

theorem exists_drain (hc : c.Punctual) (hs : c.Settled) (m : Nat) : ∃ (d : Course) (steps : History),
    d.history = steps ++ .draining :: c.history ∧ d.Punctual ∧
    (c.world.run (Act.drain (.ofDepth m))).2 = d.world ∧
    ∀ n, (c.world.run (Act.drain (.ofDepth m))).1 = .ok n →
      d.history.head? = some (.drained n) ∧ d.frames = c.frames ∧ d.world.tasks = [] ∧
        steps.drainCounts.sum = steps.tasksEnded.length := by
  have hbegun : (c.push .draining trivial).Punctual := hc.push (.ordinary hs trivial)
  obtain ⟨d, ⟨steps, hsteps⟩, hd, hw, hans⟩ := Leads.drain (c := c) m
  refine ⟨d, steps, hsteps.symm, (hd hs).punctual hbegun, hw, fun n hok => ?_⟩
  obtain ⟨hhead, hframes, htasks⟩ := hans n hok
  refine ⟨hhead, hframes, htasks, ?_⟩
  have hall : d.history = (steps ++ [.draining]) ++ c.history := by
    rw [List.append_assoc]
    exact hsteps.symm
  have hcounts := counts_between hc ((hd hs).punctual hbegun) hall hframes
  have hanswered : [Event.draining].filterMap Event.answered? = [] := rfl
  have hended : [Event.draining].filterMap Event.ended? = [] := rfl
  rwa [History.drainCounts, History.tasksEnded, List.filterMap_append, List.filterMap_append,
    hanswered, hended, List.append_nil, List.append_nil] at hcounts

theorem firstInFirstOut (hc : c.Punctual) : c.FirstInFirstOut where
  order := tasksQueued_eq c
  once := tasksStarted_perm c
  counts := drainCounts_sum hc
  total hout := drainCounts_outside hc hout
  task hs m _ hn := exists_task hc hs hn m
  left _ hhead := left_empty hhead
  drain hs m := exists_drain hc hs m

end Course

/-- At every point of every run of a program tasks run first in, first out, and each once. -/
theorem tasks_first_in_first_out (n : Nat) (program : List Expr) :
    (∃ d : Course, d.Of (.ofDepth n) program ∧ d.Punctual) ∧
      ∀ d : Course, d.Of (.ofDepth n) program → d.Punctual → ∀ c ≤ d, c.FirstInFirstOut :=
  ⟨Course.exists_punctual n program, fun _ _ hd _ hle => Course.firstInFirstOut (hd.of_le hle)⟩

/-- A task queues another one and works off the queue itself: it takes two tasks away from the drain
around it, which counts one. -/
theorem tasks_first_in_first_out_nested :
    let program : List Expr := [
      .queue (.sequence [.log [.value (.string "first")], .queue (.log [.value (.string "third")]),
        .log [.drain]]),
      .queue (.log [.value (.string "second")]),
      .log [.drain]]
    ∃ d : Course, d.Of (.ofDepth 9) program ∧ d.Punctual ∧
      d.world.log = ["first", "second", "third", "2", "1"] ∧ d.world.tasks = [] ∧
      ∀ c ≤ d, c.FirstInFirstOut := by
  intro program
  obtain ⟨⟨d, hd, hpunctual⟩, hall⟩ := tasks_first_in_first_out 9 program
  refine ⟨d, hd, hpunctual, ?_, ?_, hall d hd hpunctual⟩
  · rw [← hd.world]
    decide +kernel
  · refine List.isEmpty_iff.1 ?_
    rw [← hd.world]
    decide +kernel

end FineGrain

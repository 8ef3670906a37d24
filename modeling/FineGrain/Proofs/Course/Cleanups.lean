import FineGrain.Proofs.Course.Wakeups
/-!
Cleanups. Whatever cleanup a run of the body of a hook has returned is either kept or has begun to run,
once and in order. A hook that was disposed while no job of its own was under way never runs again, and
keeps no cleanup.
-/

namespace FineGrain

open Act

namespace Frame

/-- The hook whose job this is. -/
def job? : Frame → Option Nat
  | .job k _ => some k
  | _ => none

variable {f : Frame} {fs : List Frame} {j k : Nat}

theorem mem_jobs : k ∈ fs.filterMap job? ↔ ∃ start, .job k start ∈ fs := by
  rw [List.mem_filterMap]
  constructor
  · rintro ⟨f, hf, hk⟩
    cases f <;> cases hk
    exact ⟨_, hf⟩
  · exact fun ⟨start, hk⟩ => ⟨_, hk, rfl⟩

theorem Stacked.length_jobs (h : Stacked fs) :
    (fs.filterMap job?).length ≤ fs.countP isPhases ∧
      ((∃ start, fs.head? = some (.task .phases start)) →
        (fs.filterMap job?).length < fs.countP isPhases) := by
  induction fs with
  | nil => simp
  | cons f rest ih =>
    obtain ⟨hle, hlt⟩ := ih h.tail
    cases f with
    | job k start =>
      have hrest := Nat.succ_le_of_lt (hlt h.1)
      simpa [List.filterMap_cons, job?, isPhases] using hrest
    | task t start =>
      cases t with
      | phases =>
        have hcount : (Frame.task .phases start :: rest).countP isPhases = rest.countP isPhases + 1 :=
          List.countP_cons_of_pos rfl
        rw [hcount]
        exact ⟨Nat.le_succ_of_le hle, fun _ => Nat.lt_succ_of_le hle⟩
      | _ => simpa [List.filterMap_cons, job?, isPhases] using hle
    | _ => simpa [List.filterMap_cons, job?, isPhases] using hle

end Frame

namespace Event

def startsBody (k : Nat) : Event → Bool
  | bodyBegun h _ _ => h == k
  | _ => false

end Event

namespace Course

variable {c d : Course} {ev : Event} {j k : Nat} {x : HookSlot}

/-! ### Jobs -/

theorem one_flush (hc : c.Punctual) : c.frames.countP Frame.isPhases ≤ 1 := by
  have hqueued := (phaseFlushes hc).queued
  have hover : c.history.phasesOver = 1 → c.world.phases.flushQueued = false := by
    intro hover
    obtain ⟨history, hlawful⟩ := c
    cases history with
    | nil => cases hover
    | cons ev g =>
      cases ev with
      | phasesOver =>
        have hpop := Hook.PhaseQueue.pop_nil (Hook.PhaseQueue.jobs_of_pop_none hlawful.2.2).1
        exact congrArg (fun popped => popped.2.flushQueued) hpop
      | _ => cases hover
  have hle : c.history.phasesOver ≤ 1 := by
    unfold History.phasesOver
    split <;> omega
  rcases Nat.lt_or_ge c.history.phasesOver 1 with hzero | hone
  · split at hqueued <;> omega
  · rw [hover (Nat.le_antisymm hle hone)] at hqueued
    simp only [Bool.false_eq_true, if_false] at hqueued
    omega

theorem no_job_around {rest : List Frame} {start : World} (hc : c.Punctual)
    (hframes : c.frames = .job j start :: rest) : k ∉ rest.filterMap Frame.job? := by
  have hlength := Nat.le_trans (stacked hc).length_jobs.1 (one_flush hc)
  rw [hframes, List.filterMap_cons, Frame.job?, List.length_cons] at hlength
  rw [List.eq_nil_of_length_eq_zero (Nat.le_zero.1 (Nat.le_of_succ_le_succ hlength))]
  exact List.not_mem_nil

def InJob (c : Course) (k : Nat) : Prop := k ∈ c.frames.filterMap Frame.job?

theorem inJob_of_head {start : World} (hhead : c.frames.head? = some (.job k start)) : c.InJob k :=
  Frame.mem_jobs.2 ⟨start, List.mem_of_head? hhead⟩

theorem job_mem_step (h : c.history.Allows ev) (hk : (c.push ev h).InJob k) :
    ev = .jobBegun k ∨ c.InJob k := by
  obtain ⟨start, hk⟩ := Frame.mem_jobs.1 hk
  obtain hby | hk | ⟨n, _, ⟨⟩⟩ := (frames_step h).mem hk
  · exact .inl hby
  · exact .inr (Frame.mem_jobs.2 ⟨start, hk⟩)

theorem job_done (hc : c.Punctual) (h : c.history.Allows (.jobDone j)) : ¬ (c.push _ h).InJob k := by
  obtain ⟨start, hhead, -⟩ := id h
  exact no_job_around hc (frames_closed h hhead rfl)

/-! ### Disposed hooks -/

theorem Due.after_jobBegun {h : History} (hdue : h.Due ev) (hhead : h.head? = some (.jobBegun k)) :
    (ev = .jobDone k ∧ ∀ x, h.world.hooks.get? k = some x → x.disposed = true) ∨
      (∃ x c, ev = .cleanupBegun k c ∧ h.world.hooks.get? k = some x ∧ x.disposed = false) ∨
      ∃ x, ((∃ providers before, ev = .bodyBegun k providers before) ∨ ev = .bodySkipped k) ∧
        h.world.hooks.get? k = some x ∧ x.disposed = false ∧ x.cleanup = none := by
  have hsame {j : Nat} (hj : h.head? = some (.jobBegun j)) : k = j := by
    cases hhead.symm.trans hj
    rfl
  cases hdue with
  | ordinary settled | begun settled | bodyEnded settled => exact absurd trivial (settled _ hhead)
  | flushed head | phasesDone head => cases hhead.symm.trans head
  | jobBegun ready | phasesOver ready => obtain head | ⟨_, head⟩ := ready <;> cases hhead.symm.trans head
  | jobDone head => obtain ⟨_, _, head⟩ | head := head <;> cases hhead.symm.trans head
  | idle head gone =>
    obtain rfl := hsame head
    exact .inl ⟨rfl, gone⟩
  | cleaning head present alive =>
    obtain rfl := hsame head
    exact .inr (.inl ⟨_, _, rfl, present, alive⟩)
  | bodyBegun ready =>
    obtain ⟨head, x, hx, halive, hnone⟩ | ⟨head, -⟩ := ready
    · obtain rfl := hsame head
      exact .inr (.inr ⟨x, .inl ⟨_, _, rfl⟩, hx, halive, hnone⟩)
    · cases hhead.symm.trans head
  | bodySkipped ready =>
    obtain ⟨head, x, hx, halive, hnone⟩ | ⟨head, -⟩ := ready
    · obtain rfl := hsame head
      exact .inr (.inr ⟨x, .inr rfl, hx, halive, hnone⟩)
    · cases hhead.symm.trans head

theorem Due.after_bodyEnded {h : History} {providers : List Provider} {y : Option Cleanup}
    (hdue : h.Due ev) (hhead : h.head? = some (.bodyEnded k providers y)) : ev = .jobDone k := by
  cases hdue with
  | ordinary settled | begun settled | bodyEnded settled => exact absurd trivial (settled _ hhead)
  | flushed head | phasesDone head | idle head | cleaning head => cases hhead.symm.trans head
  | jobBegun ready | phasesOver ready => obtain head | ⟨_, head⟩ := ready <;> cases hhead.symm.trans head
  | bodyBegun ready | bodySkipped ready =>
    obtain ⟨head, -⟩ | ⟨head, -⟩ := ready <;> cases hhead.symm.trans head
  | jobDone head =>
    obtain ⟨_, _, head⟩ | head := head
    · cases hhead.symm.trans head
      rfl
    · cases hhead.symm.trans head

/-- A hook is disposed, and any job of its own has just been taken from the queue. -/
structure Retired (c : Course) (k : Nat) : Prop where
  disposed : ∃ x, c.world.hooks.get? k = some x ∧ x.disposed = true
  jobs : c.InJob k → c.history.head? = some (.jobBegun k)

theorem Retired.push (hc : c.Retired k) (h : c.history.Allows ev) (hp : (c.push ev h).Punctual) :
    (c.push ev h).Retired k ∧ ev.startsBody k = false := by
  obtain ⟨⟨x, hx, hdisposed⟩, hjobs⟩ := hc
  obtain ⟨y, hy, -, hkeeps⟩ := hook_step h (hook_lt hx) hx
  have hdue : c.history.Due ev := hp.2
  refine ⟨⟨⟨y, hy, hkeeps hdisposed⟩, fun hk => ?_⟩, ?_⟩
  · rcases job_mem_step h hk with rfl | hbefore
    · rfl
    · obtain ⟨rfl, -⟩ | ⟨z, _, -, hz, halive⟩ | ⟨z, -, hz, halive, -⟩ :=
        Due.after_jobBegun hdue (hjobs hbefore)
      · exact absurd hk (job_done hp.1 h)
      all_goals
        obtain rfl : x = z := Option.some.inj (hx.symm.trans hz)
        rw [hdisposed] at halive
        cases halive
  · cases ev with
    | bodyBegun j =>
      refine beq_eq_false_iff_ne.2 fun hj => ?_
      subst hj
      have hready : c.history.Ready j := by
        cases hdue with
        | ordinary _ hord => cases hord
        | bodyBegun hready => exact hready
      obtain ⟨start, hhead⟩ := head_of_ready hready
      obtain ⟨⟨⟩, -⟩ | ⟨_, _, ⟨⟩, -⟩ | ⟨z, -, hz, halive, -⟩ :=
        Due.after_jobBegun hdue (hjobs (inJob_of_head hhead))
      obtain rfl : x = z := Option.some.inj (hx.symm.trans hz)
      rw [hdisposed] at halive
      cases halive
    | _ => rfl

theorem Retired.le (hc : c.Retired k) (hd : d.Punctual) (hle : c ≤ d) :
    d.Retired k ∧ d.history.countP (Event.startsBody k) = c.history.countP (Event.startsBody k) := by
  induction hle using Course.le_induction with
  | start => exact ⟨hc, rfl⟩
  | push d ev h hle ih =>
    obtain ⟨hretired, hcount⟩ := ih hd.1
    obtain ⟨hpush, hstarts⟩ := hretired.push h hd
    refine ⟨hpush, ?_⟩
    rw [history_push, List.countP_cons, hstarts, hcount]
    rfl

/-! ### The cell -/

/-- What is kept for a hook between its runs. -/
def cell (c : Course) (k : Nat) : Option Cleanup := (c.world.hooks.get? k).bind (·.cleanup)

theorem cell_step (h : c.history.Allows ev) (hbegun : ∀ x, ev ≠ .cleanupBegun k x)
    (hended : ∀ providers x, ev ≠ .bodyEnded k providers x) : (c.push ev h).cell k = c.cell k := by
  have hmodify {j : Nat} {f : HookSlot → HookSlot} (hf : ∀ x, j = k → (f x).cleanup = x.cleanup) :
      ((c.world.hooks.modify j f).get? k).bind (·.cleanup) = c.cell k := by
    rw [cell, Store.get?_modify]
    split
    · rename_i hj
      subst hj
      cases c.world.hooks.get? k with
      | none => rfl
      | some x => exact hf x rfl
    · rfl
  rw [cell, world_push]
  cases ev with
  | aside w => rw [Event.world, World.Aside.hooks h]; rfl
  | hookMade j =>
    have hj : j = c.world.next := h
    rw [cell, Event.world, Store.get?_put]
    split
    · rename_i hk
      cases hx : c.world.hooks.get? k with
      | none => rfl
      | some x => exact absurd (hook_lt hx) (by omega)
    · rfl
  | jobQueued | jobBegun | bodyBegun | hookDisposed => exact hmodify fun _ _ => rfl
  | cleanupBegun j x => exact hmodify fun _ hj => absurd (by rw [hj]) (hbegun x)
  | bodyEnded j providers x => exact hmodify fun _ hj => absurd (by rw [hj]) (hended providers x)
  | composing s =>
    rw [Event.world, World.opened_eq]
    rfl
  | _ => rfl

theorem cell_cleanupBegun {y : Cleanup} (h : c.history.Allows (.cleanupBegun k y)) :
    (c.push _ h).cell k = none := by
  rw [cell, world_push, Event.world, Store.get?_modify, if_pos rfl]
  cases c.world.hooks.get? k <;> rfl

theorem job_present (hk : c.InJob k) : ∃ x, c.world.hooks.get? k = some x := by
  induction c using Course.induction with
  | start => cases hk
  | push c ev h ih =>
    obtain ⟨x, hx⟩ : ∃ x, c.world.hooks.get? k = some x := by
      rcases job_mem_step h hk with rfl | hk
      · obtain ⟨q, phase, -, hjobs, -⟩ := first_job h.2
        exact (marked c).present k (by rw [hjobs]; exact List.mem_cons_self)
      · exact ih hk
    obtain ⟨y, hy, -⟩ := hook_step h (hook_lt hx) hx
    exact ⟨y, hy⟩

theorem job_of_body {providers : List Provider} {start : World} (hc : c.Punctual)
    (hframe : c.frames.head? = some (.hookBody k providers start)) : c.InJob k := by
  obtain ⟨rest, hrest⟩ := List.head?_eq_some_iff.1 hframe
  have hstacked := stacked hc
  rw [hrest] at hstacked
  obtain ⟨⟨began, hjob⟩, -⟩ := hstacked
  refine Frame.mem_jobs.2 ⟨began, ?_⟩
  rw [hrest]
  exact List.mem_cons_of_mem _ (List.mem_of_head? hjob)

/-- While a job is under way nothing is kept for its hook, except right at the beginning, where the
cleanup of the last run is still there, and at the end. -/
theorem cell_empty (hc : c.Punctual) (hk : c.InJob k) : c.cell k = none ∨
    c.history.head? = some (.jobBegun k) ∨
      ∃ providers y, c.history.head? = some (.bodyEnded k providers y) := by
  revert hk
  refine punctual_induction (motive := fun c => c.InJob k → c.cell k = none ∨
    c.history.head? = some (.jobBegun k) ∨
      ∃ providers y, c.history.head? = some (.bodyEnded k providers y)) nofun ?_ hc
  intro c ev h hp hdue ih hk
  rcases job_mem_step h hk with rfl | hbefore
  · exact .inr (.inl rfl)
  by_cases hended : ∃ providers y, ev = .bodyEnded k providers y
  · obtain ⟨providers, y, rfl⟩ := hended
    exact .inr (.inr ⟨_, _, rfl⟩)
  by_cases hbegun : ∃ y, ev = .cleanupBegun k y
  · obtain ⟨y, rfl⟩ := hbegun
    exact .inl (cell_cleanupBegun h)
  have hsame := cell_step (k := k) h (fun y he => hbegun ⟨y, he⟩) fun q y he => hended ⟨q, y, he⟩
  rw [hsame]
  -- Right behind the beginning of a job its cleanup is taken, unless there is none.
  obtain hnone | hhead | ⟨providers, y, hhead⟩ := ih hbefore
  · exact .inl hnone
  · obtain ⟨rfl, -⟩ | ⟨x, y, rfl, -⟩ | ⟨x, -, hx, -, hnone⟩ := Due.after_jobBegun hdue hhead
    · exact absurd hk (job_done hp h)
    · exact absurd ⟨y, rfl⟩ hbegun
    · exact .inl (by rw [cell, show c.world.hooks.get? k = some x from hx]; exact hnone)
  · obtain rfl := Due.after_bodyEnded hdue hhead
    exact absurd hk (job_done hp h)

end Course

namespace History

/-- The cleanups that runs of the body of a hook have returned, the last first. -/
def returned (k : Nat) : History → List Cleanup
  | [] => []
  | .bodyEnded j _ y :: h => if j = k then y.toList ++ returned k h else returned k h
  | _ :: h => returned k h

/-- The cleanups of a hook that have begun to run, the last first. -/
def cleaned (k : Nat) : History → List Cleanup
  | [] => []
  | .cleanupBegun j y :: h => if j = k then y :: cleaned k h else cleaned k h
  | _ :: h => cleaned k h

end History

namespace Course

variable {c d : Course} {ev : Event} {j k : Nat} {x : HookSlot}

theorem returned_eq (hc : c.Punctual) :
    c.history.returned k = (c.cell k).toList ++ c.history.cleaned k := by
  refine punctual_induction (motive := fun c => c.history.returned k =
    (c.cell k).toList ++ c.history.cleaned k) rfl ?_ hc
  intro c ev h hp hdue ih
  rw [history_push]
  -- What a body returns finds the cell empty, since the cleanup of the run before it went first.
  by_cases hended : ∃ providers y, ev = .bodyEnded k providers y
  · obtain ⟨providers, y, rfl⟩ := hended
    obtain ⟨start, _, _, hframe, -⟩ := id h
    have hjob : c.InJob k := job_of_body hp hframe
    obtain ⟨x, hx⟩ := job_present hjob
    have hsettled : c.Settled := by
      cases hdue with
      | ordinary settled _ | bodyEnded settled => exact settled
    have hnone : c.cell k = none := by
      obtain hnone | hhead | ⟨_, _, hhead⟩ := cell_empty hp hjob
      · exact hnone
      all_goals exact absurd trivial (hsettled _ hhead)
    have hcell : (c.push _ h).cell k = y := by
      rw [cell, world_push, Event.world, Store.get?_modify, if_pos rfl, hx]
      rfl
    rw [hcell, History.returned, if_pos rfl, ih, hnone]
    rfl
  by_cases hbegun : ∃ y, ev = .cleanupBegun k y
  · obtain ⟨y, rfl⟩ := hbegun
    have hkept : c.cell k = some y := h
    rw [cell_cleanupBegun h, History.cleaned, if_pos rfl]
    rw [hkept] at ih
    exact ih
  rw [cell_step (k := k) h (fun y he => hbegun ⟨y, he⟩) fun q y he => hended ⟨q, y, he⟩]
  cases ev with
  | bodyEnded j providers y =>
    rw [History.returned, if_neg fun hj => hended ⟨providers, y, by rw [hj]⟩]
    exact ih
  | cleanupBegun j y =>
    rw [History.cleaned, if_neg fun hj => hbegun ⟨y, by rw [hj]⟩]
    exact ih
  | _ => exact ih

/-! ### Disposal -/

theorem Retired.cell_le (hc : c.Retired k) (hnone : c.cell k = none) (hd : d.Punctual)
    (hle : c ≤ d) : d.cell k = none := by
  induction hle using Course.le_induction with
  | start => exact hnone
  | push d ev h hle ih =>
    obtain ⟨⟨-, hjobs⟩, -⟩ := hc.le hd.1 hle
    by_cases hended : ∃ providers y, ev = .bodyEnded k providers y
    · obtain ⟨providers, y, rfl⟩ := hended
      obtain ⟨start, _, _, hframe, -⟩ := id h
      have hhead := hjobs (job_of_body hd.1 hframe)
      obtain ⟨⟨⟩, -⟩ | ⟨_, _, ⟨⟩, -⟩ | ⟨_, ⟨_, _, ⟨⟩⟩ | ⟨⟨⟩⟩, -⟩ := Due.after_jobBegun hd.2 hhead
    by_cases hbegun : ∃ y, ev = .cleanupBegun k y
    · obtain ⟨y, rfl⟩ := hbegun
      exact cell_cleanupBegun h
    rw [cell_step (k := k) h (fun y he => hbegun ⟨y, he⟩) fun q y he => hended ⟨q, y, he⟩]
    exact ih hd.1

theorem run_cleanup_none {host : Host} (hcell : c.cell k = none) :
    c.world.run (runCleanup host k) = (.ok ⟨⟩, c.world) := by
  rw [runCleanup, World.run_bind_ok c.world.run_get,
    show (c.world.hooks.get? k).bind (·.cleanup) = none from hcell]
  rfl

theorem run_cleanup_some {host : Host} {y : Cleanup} (h : c.history.Allows (.cleanupBegun k y)) :
    c.world.run (runCleanup host k) = (c.push _ h).world.run (do
      let _ ← host.call y.body [y.argument]
      return ⟨⟩) := by
  rw [runCleanup, World.run_bind_ok c.world.run_get,
    show (c.world.hooks.get? k).bind (·.cleanup) = some y from h]
  rfl

theorem Retired.run_cleanup {n : Nat} {w : World} (hk : c.Retired k) (hc : c.Punctual)
    (hs : c.Settled) (hrun : c.world.run (runCleanup (.ofDepth n) k) = (.ok ⟨⟩, w)) :
    ∃ d, c ≤ d ∧ d.Punctual ∧ d.world = w ∧ d.cell k = none := by
  cases hcell : c.cell k with
  | none =>
    rw [run_cleanup_none hcell] at hrun
    cases hrun
    exact ⟨c, le_refl c, hc, rfl, hcell⟩
  | some y =>
    have hbegun : c.history.Allows (.cleanupBegun k y) := hcell
    let b := c.push (.cleanupBegun k y) hbegun
    have hb : b.Punctual := hc.push (.ordinary hs trivial)
    obtain ⟨d, hle, hd, hw, -⟩ := (lawful_ofDepth n).call b y.body [y.argument]
    have hd := (hd (History.settled_cons id)).punctual hb
    have hnone := (hk.le hb (le_push hbegun)).1.cell_le (cell_cleanupBegun hbegun) hd hle
    rw [run_cleanup_some hbegun, World.run_bind] at hrun
    rcases hr : b.world.run ((Host.ofDepth n).call y.body [y.argument]) with ⟨_ | _, u⟩ <;>
      rw [show (c.push _ hbegun).world.run _ = _ from hr] at hrun <;> cases hrun
    rw [hr] at hw
    exact ⟨d, (le_push hbegun).trans hle, hd, hw.symm, hnone⟩

/-- A hook that is disposed while no job of its own is under way never runs again, and no cleanup of it
is kept from then on. -/
theorem disposed_outside {n : Nat} {w : World} (hc : c.Punctual) (hs : c.Settled)
    (hx : c.world.hooks.get? k = some x) (halive : x.disposed = false) (hjob : ¬ c.InJob k)
    (hrun : c.world.run (disposeHook (.ofDepth n) k) = (.ok ⟨⟩, w)) :
    ∃ d, c ≤ d ∧ d.Punctual ∧ d.world = w ∧ ∀ e, d ≤ e → e.Punctual → e.cell k = none ∧
      e.history.countP (Event.startsBody k) = c.history.countP (Event.startsBody k) := by
  have hallowed : c.history.Allows (.hookDisposed k) := ⟨x, hx, halive⟩
  let c₁ := c.push (.hookDisposed k) hallowed
  have hc₁ : c₁.Punctual := hc.push (.ordinary hs trivial)
  have hs₁ : c₁.Settled := History.settled_cons id
  have hretired : c₁.Retired k := by
    refine ⟨⟨{ x with disposed := true }, ?_, rfl⟩, fun hk => absurd hk hjob⟩
    simp [c₁, Event.world, Store.get?_modify, hx]
  have hrun₁ : c.world.run (disposeHook (.ofDepth n) k) = c₁.world.run (do
      disposeEffect x.effect
      runCleanup (.ofDepth n) k) := by
    simp [disposeHook, World.run_bind, hx, halive, modifyHook, c₁, Event.world]
  rw [hrun₁, World.run_bind] at hrun
  obtain ⟨c₂, hle₂, hc₂, hw₂, hans₂⟩ := Runs.disposeEffect (c := c₁) x.effect
  rcases hr : c₁.world.run (disposeEffect x.effect) with ⟨_ | _, w₂⟩ <;> rw [hr] at hrun hw₂ hans₂
  · cases hrun
  obtain rfl : w₂ = c₂.world := hw₂
  have hc₂ := (hc₂ hs₁).punctual hc₁
  obtain ⟨d, hle, hd, hw, hnone⟩ :=
    (hretired.le hc₂ hle₂).1.run_cleanup hc₂ ((hans₂ ⟨⟩ rfl).1 hs₁) hrun
  have hle₁ := hle₂.trans hle
  refine ⟨d, (le_push _).trans hle₁, hd, hw, fun e hde he => ?_⟩
  exact ⟨(hretired.le hd hle₁).1.cell_le hnone he hde, (hretired.le he (hle₁.trans hde)).2⟩

end Course

/-- A job does not ask again whether its hook is disposed once it has run the cleanup. -/
example :
    (Program.run [
      .create "s" (.state (.value (.integer 0))),
      .create "h" (.hook .passive (some [.named "s"])
        (.sequence [.log [.value (.string "body")], .value (.boolean true)])
        (some (.sequence [.log [.value (.string "cleanup")], .on "h" "dispose" .dispose]))),
      .drain,
      .on "s" "set" (.set (.value (.integer 1))),
      .drain]).map (·.log) = [[], [], ["body"], [], ["cleanup", "body"]] := by
  decide +kernel

/-- The cleanup that a body returns after it has disposed its own hook is kept and never runs. -/
example :
    (Program.run [
      .create "h" (.hook .passive none
        (.sequence [.log [.value (.string "body")], .on "h" "dispose" .dispose, .value (.boolean true)])
        (some (.log [.value (.string "cleanup")]))),
      .drain,
      .drop "h"]).map (·.log) = [[], ["body"], []] := by
  decide +kernel

end FineGrain

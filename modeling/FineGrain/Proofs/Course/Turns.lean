import FineGrain.Proofs.Course.Cleanups
/-!
Jobs take turns, and so do the runs of a body and its cleanups. One job at most is under way; the body of
a hook is not running where a job of the hook comes to it; and between two starts of the body the run
that came first has ended and what it returned has been invoked, once.
-/

namespace FineGrain

open Act

namespace Frame

def isBody (k : Nat) : Frame → Bool
  | .hookBody j _ _ => j == k
  | _ => false

variable {f : Frame} {fs : List Frame} {k : Nat}

theorem eq_of_isBody (h : f.isBody k = true) : ∃ before start, f = .hookBody k before start := by
  unfold isBody at h
  split at h
  · obtain rfl := eq_of_beq h
    exact ⟨_, _, rfl⟩
  · cases h

theorem countP_isBody_count (fs : List Frame) : (count fs).countP (isBody k) = fs.countP (isBody k) := by
  unfold count
  split <;> simp [isBody]

theorem Stacked.job_of_body {before : List Provider} {start : World} (h : Stacked fs)
    (hk : .hookBody k before start ∈ fs) : k ∈ fs.filterMap job? := by
  induction fs with
  | nil => cases hk
  | cons f rest ih =>
    obtain ⟨began, hjob⟩ : ∃ began, .job k began ∈ rest := by
      rcases List.mem_cons.1 hk with rfl | hk
      · obtain ⟨⟨began, hjob⟩, -⟩ := h
        exact ⟨began, List.mem_of_head? hjob⟩
      · exact mem_jobs.1 (ih h.tail hk)
    exact mem_jobs.2 ⟨began, List.mem_cons_of_mem _ hjob⟩

theorem Step.stays {ev : Event} {before after : List Frame} (h : Step ev before after) (hf : f ∈ before) :
    f ∈ after ∨ f.ClosedBy ev ∨ (∃ t start, f = .task t start) ∨ ∃ n start, f = .draining n start := by
  cases h with
  | same => exact .inl hf
  | opened _ => exact .inl (List.mem_cons_of_mem _ hf)
  | closed hby =>
    rcases List.mem_cons.1 hf with rfl | hf
    · exact .inr (.inl hby)
    · exact .inl hf
  | done _ =>
    rcases List.mem_cons.1 hf with rfl | hf
    · exact .inr (.inr (.inl ⟨_, _, rfl⟩))
    unfold count
    split
    · rcases List.mem_cons.1 hf with rfl | hf
      · exact .inr (.inr (.inr ⟨_, _, rfl⟩))
      · exact .inl (List.mem_cons_of_mem _ hf)
    · exact .inl hf

end Frame

namespace Event

/-- What a run of the body of a hook returns at its end. -/
def answer? (k : Nat) : Event → Option (Option Cleanup)
  | bodyEnded j _ y => if j = k then some y else none
  | _ => none

end Event

namespace History

variable {k : Nat}

/-- What the runs of the body of a hook have returned, the last first. -/
def answers (k : Nat) (h : History) : List (Option Cleanup) := h.filterMap (Event.answer? k)

/-- How often the body of a hook has begun. -/
def starts (k : Nat) (h : History) : Nat := h.countP (Event.startsBody k)

theorem returned_eq_answers (h : History) : h.returned k = (h.answers k).flatMap Option.toList := by
  induction h with
  | nil => rfl
  | cons ev h ih =>
    cases ev with
    | bodyEnded j providers y =>
      by_cases hj : j = k
      · simp [returned, answers, Event.answer?, hj, ih]
      · simp [returned, answers, Event.answer?, hj, ih]
    | _ => exact ih

theorem cleaned_append (g h : History) : cleaned k (g ++ h) = cleaned k g ++ cleaned k h := by
  induction g with
  | nil => rfl
  | cons ev g ih =>
    cases ev with
    | cleanupBegun j y =>
      by_cases hj : j = k
      · simp [cleaned, hj, ih]
      · simp [cleaned, hj, ih]
    | _ => exact ih

end History

namespace Course

variable {c d : Course} {ev : Event} {j k : Nat} {x : HookSlot}

theorem body_frames_push (h : c.history.Allows ev) (hbegun : ev.startsBody k = false)
    (hended : ∀ before y, ev ≠ .bodyEnded k before y) :
    (c.push ev h).frames.countP (Frame.isBody k) = c.frames.countP (Frame.isBody k) := by
  refine (frames_step h).read_eq (r := List.countP (Frame.isBody k)) (fun f fs hby => ?_)
    fun _ _ fs _ => Frame.countP_isBody_count fs
  refine List.countP_cons_of_neg fun hbody => ?_
  obtain ⟨before, start, rfl⟩ := Frame.eq_of_isBody hbody
  obtain ⟨providers, saved, rfl⟩ | ⟨y, hev⟩ := hby
  · simp [Event.startsBody] at hbegun
  · exact hended _ _ hev

theorem starts_eq (c : Course) (k : Nat) :
    c.history.starts k = (c.history.answers k).length + c.frames.countP (Frame.isBody k) := by
  induction c using Course.induction with
  | start => rfl
  | push c ev h ih =>
    have hstarts : (c.push ev h).history.starts k =
        c.history.starts k + if ev.startsBody k then 1 else 0 := List.countP_cons
    -- Only the end of a body turns a body under way into an answer, and only its start adds one to
    -- both sides.
    by_cases hended : ∃ before y, ev = .bodyEnded k before y
    · obtain ⟨before, y, rfl⟩ := hended
      have hanswers : (c.push _ h).history.answers k = y :: c.history.answers k := by
        simp [History.answers, Event.answer?]
      obtain ⟨start, _, _, hhead, -⟩ := id h
      have hbody : Frame.isBody k (.hookBody k before start) = true := by simp [Frame.isBody]
      rw [frames_closed h hhead rfl, List.countP_cons_of_pos hbody] at ih
      rw [hstarts, hanswers, ih, List.length_cons]
      simp only [Event.startsBody, Bool.false_eq_true, if_false]
      omega
    have hended (before : List Provider) (y : Option Cleanup) : ev ≠ .bodyEnded k before y :=
      fun hev => hended ⟨before, y, hev⟩
    have hanswer : ev.answer? k = none := by
      cases ev with
      | bodyEnded j before y => exact if_neg fun hj => hended before y (by rw [hj])
      | _ => rfl
    have hanswers : (c.push ev h).history.answers k = c.history.answers k := by
      simp [History.answers, hanswer]
    cases hbegun : ev.startsBody k with
    | false =>
      rw [hstarts, hanswers, body_frames_push h hbegun hended, ih, hbegun]
      rfl
    | true =>
      cases ev with
      | bodyBegun j providers before =>
        obtain rfl : j = k := beq_iff_eq.1 hbegun
        rw [hstarts, hanswers, ih]
        simp [Event.frames, Event.startsBody, Frame.isBody, Nat.add_assoc]
      | _ => cases hbegun

theorem body_of_running (hx : c.world.hooks.get? k = some x) (hr : x.running = true) :
    ∃ before start, .hookBody k before start ∈ c.frames := by
  induction c using Course.induction generalizing x with
  | start => cases hx
  | push c ev h ih =>
    -- A hook comes to run where its body begins, or was running and its body does not end.
    suffices hold : (∃ providers before, ev = .bodyBegun k providers before) ∨
        (∀ before y, ev ≠ .bodyEnded k before y) ∧
          ∃ z, c.world.hooks.get? k = some z ∧ z.running = true by
      rcases hold with ⟨providers, before, rfl⟩ | ⟨hended, z, hz, hzr⟩
      · exact ⟨before, _, List.mem_cons_self⟩
      · obtain ⟨before, start, hmem⟩ := ih hz hzr
        obtain hmem | ⟨y, rfl⟩ | ⟨t, _, ⟨⟩⟩ | ⟨n, _, ⟨⟩⟩ := (frames_step h).stays hmem
        · exact ⟨before, start, hmem⟩
        · exact absurd rfl (hended before y)
    rw [world_push] at hx
    cases ev with
    | aside w => exact .inr ⟨nofun, x, (World.Aside.hooks h ▸ hx :), hr⟩
    | hookMade m =>
      rcases Store.of_put hx with ⟨-, rfl⟩ | hx
      · cases hr
      · exact .inr ⟨nofun, x, hx, hr⟩
    | bodyBegun m providers before =>
      obtain ⟨y, hy, rfl⟩ := Store.of_modify hx
      split at hr
      next hk => exact .inl ⟨providers, before, by rw [hk]⟩
      next => exact .inr ⟨nofun, y, hy, hr⟩
    | bodyEnded m before y =>
      obtain ⟨z, hz, rfl⟩ := Store.of_modify hx
      split at hr
      · cases hr
      · rename_i hk
        refine .inr ⟨fun _ _ he => ?_, z, hz, hr⟩
        cases he
        exact hk rfl
    | jobQueued m | jobBegun m | cleanupBegun m | hookDisposed m =>
      obtain ⟨y, hy, rfl⟩ := Store.of_modify hx
      refine .inr ⟨nofun, y, hy, ?_⟩
      split at hr <;> exact hr
    | composing s => exact .inr ⟨nofun, x, by simpa [Event.world, World.opened_eq] using hx, hr⟩
    | _ => exact .inr ⟨nofun, x, hx, hr⟩

theorem no_body_at_job {before : List Provider} {start began : World} (hc : c.Punctual)
    (hhead : c.frames.head? = some (.job k start)) : .hookBody j before began ∉ c.frames := by
  intro hbody
  obtain ⟨rest, hrest⟩ := List.head?_eq_some_iff.1 hhead
  have hstacked := stacked hc
  rw [hrest] at hbody hstacked
  rcases List.mem_cons.1 hbody with heq | hbody
  · cases heq
  · exact no_job_around hc hrest (hstacked.tail.job_of_body hbody)

theorem not_running_at_job {start : World} (hc : c.Punctual)
    (hhead : c.frames.head? = some (.job k start)) (hx : c.world.hooks.get? j = some x) :
    x.running = false := by
  cases hr : x.running with
  | false => rfl
  | true =>
    obtain ⟨before, began, hbody⟩ := body_of_running hx hr
    exact absurd hbody (no_body_at_job hc hhead)

theorem bodySkipped_not_mem (hc : c.Punctual) (k : Nat) : .bodySkipped k ∉ c.history := by
  refine punctual_induction (motive := fun c => .bodySkipped k ∉ c.history) List.not_mem_nil ?_ hc
  intro c ev h hp hdue ih hmem
  rcases List.mem_cons.1 hmem with rfl | hmem
  · obtain ⟨x, hx, hr⟩ := id h
    have hready : c.history.Ready k := by
      cases hdue with
      | ordinary _ hord => cases hord
      | bodySkipped hready => exact hready
    obtain ⟨start, hhead⟩ := head_of_ready hready
    rw [not_running_at_job hp hhead hx] at hr
    cases hr
  · exact ih hmem

/-- Where the body of a hook begins, every run before has ended, and nothing is kept of what they have
returned. -/
theorem settled_at_start {providers before : List Provider} {h : History} (hc : c.Punctual)
    (hh : c.history = .bodyBegun k providers before :: h) :
    h.starts k = (h.answers k).length ∧ h.returned k = h.cleaned k := by
  obtain ⟨b, hallowed, rfl⟩ := exists_push hh
  obtain rfl : b.history = h := List.tail_eq_of_cons_eq hh
  have hready : b.history.Ready k := by
    cases hc.2 with
    | ordinary _ hord => cases hord
    | bodyBegun hready => exact hready
  obtain ⟨start, hhead⟩ := head_of_ready hready
  constructor
  · rw [starts_eq, List.countP_eq_zero.2 fun f hf hbody => ?_]
    · rfl
    obtain ⟨before, began, rfl⟩ := Frame.eq_of_isBody hbody
    exact no_body_at_job hc.1 hhead hf
  · have hnone : b.cell k = none := by
      obtain ⟨-, x, hx, -, hnone⟩ | ⟨hended, -⟩ := hready
      · rw [cell, show b.world.hooks.get? k = some x from hx]
        exact hnone
      · obtain hnone | hbegun | ⟨_, _, hend⟩ := cell_empty hc.1 (inJob_of_head hhead)
        · exact hnone
        · cases hended.symm.trans hbegun
        · cases hended.symm.trans hend
    rw [returned_eq hc.1, hnone]
    rfl

theorem exists_le {later h : History} (hh : c.history = later ++ h) :
    ∃ b ≤ c, b.history = h := by
  induction later generalizing c with
  | nil => exact ⟨c, le_refl c, hh⟩
  | cons ev later ih =>
    obtain ⟨b, hallowed, rfl⟩ := exists_push hh
    obtain ⟨a, hle, ha⟩ := ih (c := b) (List.tail_eq_of_cons_eq hh)
    exact ⟨a, hle.trans (le_push hallowed), ha⟩

theorem between_starts {later between earlier : History} {providers providers' before before' : List Provider}
    (hc : c.Punctual) (hh : c.history = later ++ .bodyBegun k providers before ::
      (between ++ .bodyBegun k providers' before' :: earlier))
    (hnone : between.starts k = 0) :
    ∃ y, between.answers k = [y] ∧ between.cleaned k = y.toList := by
  obtain ⟨c₂, hle₂, hc₂⟩ := exists_le hh
  have hh' : c.history = (later ++ .bodyBegun k providers before :: between) ++
      .bodyBegun k providers' before' :: earlier := by
    rw [hh]
    simp
  obtain ⟨c₁, hle₁, hc₁⟩ := exists_le hh'
  obtain ⟨hstarts₂, hcleaned₂⟩ := settled_at_start (hc.of_le hle₂) hc₂
  obtain ⟨hstarts₁, hcleaned₁⟩ := settled_at_start (hc.of_le hle₁) hc₁
  have hanswers : (between ++ .bodyBegun k providers' before' :: earlier).answers k =
      between.answers k ++ earlier.answers k := List.filterMap_append
  have hone : (between.answers k).length = 1 := by
    have hsum : (between ++ .bodyBegun k providers' before' :: earlier).starts k =
        between.starts k + (earlier.starts k + 1) := by
      simp [History.starts, Event.startsBody]
    rw [hanswers, List.length_append, hsum, hnone] at hstarts₂
    omega
  obtain ⟨y, hy⟩ := List.length_eq_one_iff.1 hone
  refine ⟨y, hy, ?_⟩
  rw [History.returned_eq_answers, hanswers, List.flatMap_append, ← History.returned_eq_answers,
    ← History.returned_eq_answers, History.cleaned_append,
    show History.cleaned k (.bodyBegun k providers' before' :: earlier) = earlier.cleaned k from rfl,
    hcleaned₁] at hcleaned₂
  rw [← List.append_cancel_right hcleaned₂, History.returned_eq_answers, hy]
  simp

/-- Jobs do not nest, and bodies and cleanups take turns.

* `one_job`: at most one job is under way
* `job`: what a job does when its turn comes is a sequence of steps that are made in their time
* `free`, `entered`: where a job comes to the body of its hook the body is not running, so it is never
  passed over
* `between`: between two starts of a body that follow each other the run that came first has ended, and
  the cleanup that it has returned, if any, has been invoked once, and no other one
* `once`: the cleanups that were invoked are those that were returned, each once and in order, but for
  the one that is still kept -/
structure InTurn (c : Course) : Prop where
  one_job : (c.frames.filterMap Frame.job?).length ≤ 1
  job : ∀ n k start, c.history.AtJobs → c.frames.head? = some (.task .phases start) →
    c.world.phases.pop.1 = some k →
    ∃ d : Course, d.Punctual ∧ .jobBegun k :: c.history <:+ d.history ∧
      ({ c.world with phases := c.world.phases.pop.2 }.run (runHook (.ofDepth n) k)).2 = d.world ∧
      (({ c.world with phases := c.world.phases.pop.2 }.run (runHook (.ofDepth n) k)).1 = .ok ⟨⟩ →
        d.history.Due (.jobDone k))
  free : ∀ k start j x, c.frames.head? = some (.job k start) → c.world.hooks.get? j = some x →
    x.running = false
  entered : ∀ k, .bodySkipped k ∉ c.history
  between : ∀ k providers providers' before before' (later between earlier : History),
    c.history = later ++ .bodyBegun k providers before ::
      (between ++ .bodyBegun k providers' before' :: earlier) →
    between.starts k = 0 → ∃ y, between.answers k = [y] ∧ between.cleaned k = y.toList
  once : ∀ k, (c.history.answers k).flatMap Option.toList = (c.cell k).toList ++ c.history.cleaned k

theorem exists_job {n : Nat} {start : World} (hc : c.Punctual) (hready : c.history.AtJobs)
    (hframe : c.frames.head? = some (.task .phases start)) (hpop : c.world.phases.pop.1 = some k) :
    ∃ d : Course, d.Punctual ∧ .jobBegun k :: c.history <:+ d.history ∧
      ({ c.world with phases := c.world.phases.pop.2 }.run (runHook (.ofDepth n) k)).2 = d.world ∧
      (({ c.world with phases := c.world.phases.pop.2 }.run (runHook (.ofDepth n) k)).1 = .ok ⟨⟩ →
        d.history.Due (.jobDone k)) := by
  have hbegun : c.history.Allows (.jobBegun k) := ⟨⟨start, hframe⟩, hpop⟩
  obtain ⟨d, hle, hd, hw, hans⟩ := Leads.job (p := True) (c := c.push (.jobBegun k) hbegun)
    (lawful_ofDepth n) (fun _ => rfl) ⟨_, rfl⟩
  exact ⟨d, (hd trivial).punctual (hc.push (.jobBegun hready)), hle, hw, fun hok => (hans ⟨⟩ hok).1 trivial⟩

theorem inTurn (hc : c.Punctual) : c.InTurn where
  one_job := Nat.le_trans (stacked hc).length_jobs.1 (one_flush hc)
  job _ _ _ hready hframe hpop := exists_job hc hready hframe hpop
  free _ _ _ _ hhead hx := not_running_at_job hc hhead hx
  entered := bodySkipped_not_mem hc
  between _ _ _ _ _ _ _ _ hh hnone := between_starts hc hh hnone
  once _ := (History.returned_eq_answers _).symm.trans (returned_eq hc)

end Course

/-- At every point of every run of a program jobs do not nest, and bodies and cleanups take turns. -/
theorem jobs_in_turn (n : Nat) (program : List Expr) :
    (∃ d : Course, d.Of (.ofDepth n) program ∧ d.Punctual) ∧
      ∀ d : Course, d.Of (.ofDepth n) program → d.Punctual → ∀ c ≤ d, c.InTurn :=
  ⟨Course.exists_punctual n program, fun _ _ hd _ hle => Course.inTurn (hd.of_le hle)⟩

/-- A hook runs, and runs again after a write from its own cleanup: each cleanup is invoked once, but for
the last one, which is kept. -/
theorem jobs_in_turn_again :
    let program : List Expr := [
      .create "s" (.state (.value (.integer 0))),
      .create "h" (.hook .passive (some [.named "s"])
        (.sequence [.log [.value (.string "body")], .value (.boolean true)])
        (some (.sequence [.log [.value (.string "cleanup")],
          .branch (.less (.on "s" "peek" .peek) (.value (.integer 2)))
            (.sequence [.on "s" "set" (.set (.value (.integer 2))), .drain]) (.value .null)]))),
      .drain,
      .on "s" "set" (.set (.value (.integer 1))),
      .drain]
    ∃ d : Course, d.Of (.ofDepth 20) program ∧ d.Punctual ∧
      d.world.log = ["cleanup", "body", "cleanup", "body"] ∧ (d.cell 2).isSome ∧ ∀ c ≤ d, c.InTurn := by
  intro program
  obtain ⟨⟨d, hd, hpunctual⟩, hall⟩ := jobs_in_turn 20 program
  refine ⟨d, hd, hpunctual, ?_, ?_, hall d hd hpunctual⟩
  · rw [← hd.world]
    decide +kernel
  · rw [Course.cell, ← hd.world]
    decide +kernel

end FineGrain

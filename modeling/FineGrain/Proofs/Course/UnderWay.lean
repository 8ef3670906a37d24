import FineGrain.Proofs.Course.Kinds
import FineGrain.Proofs.Hook.Lanes
/-!
What is under way and what is queued. A step opens something, closes what was opened last, or leaves it
all as it is; it takes a task from the front of the queue or adds one at the end. A job of a hook runs
directly inside a flush of the phases, and the body of a hook directly inside its job; so outside of
all tasks nothing is prescribed.
-/

namespace FineGrain

namespace Event

/-- The task that a step takes from the queue. -/
def taken : Event → List Task
  | committed s _ | lapsed s | refused s => [.commit s]
  | taskBegun t => [t]
  | _ => []

def added (w : World) : Event → List Task
  | scheduled _ => if w.graph.flushQueued then [] else [.flush]
  | composing s _ _ _ => if ((w.signals.get? s).getD default).dirty then [] else [.commit s]
  | jobQueued _ _ => if w.phases.flushQueued then [] else [.phases]
  | queued code => [.body code]
  | firstRunQueued e => [.firstRun e]
  | _ => []

end Event

namespace Frame

/-- A step that opens something like this. -/
def OpenedBy : Frame → Event → Prop
  | .effect e before _ _ _, ev => ∃ depth providers, ev = .started e depth providers before
  | .untracked observers, ev => ev = .hidden observers
  | .providing before, ev => ∃ providers, ev = .provided providers before
  | .updating s depth body _, ev => ev = .updating s depth body
  | .composing s write current _, ev => ∃ first, ev = .composing s write first current
  | .factory m _, ev => ev = .computing m ∨ ev = .recomputing m
  | .draining _ _, ev => ev = .draining
  | .task t _, ev => ev.taken = [t]
  | .job k _, ev => ev = .jobBegun k
  | .cleanup k c _, ev => ev = .cleanupBegun k c
  | .hookBody k _ _, ev => ∃ providers before, ev = .bodyBegun k providers before

/-- A step that closes something like this; a task is closed where the drain goes on. -/
def ClosedBy : Frame → Event → Prop
  | .effect e providers _ _ _, ev => ev = .finished e providers
  | .untracked observers, ev => ev = .shown observers
  | .providing providers, ev => ev = .withdrawn providers
  | .updating s _ _ _, ev => ∃ v, ev = .updated s v
  | .composing s write _ start, ev => ∃ v, ev = .composed s write start v
  | .factory m _, ev => ∃ v, ev = .computed m v ∨ ev = .recomputed m v
  | .draining n _, ev => ev = .drained n
  | .task _ _, _ => False
  | .job k _, ev => ev = .jobDone k
  | .cleanup k _ _, ev => ev = .cleanupEnded k
  | .hookBody k providers _, ev => ∃ c, ev = .bodyEnded k providers c

/-- What a step makes of what is under way. -/
inductive Step (ev : Event) : List Frame → List Frame → Prop
  | same {fs : List Frame} : Step ev fs fs
  | opened {f : Frame} {fs : List Frame} (by_ev : f.OpenedBy ev) : Step ev fs (f :: fs)
  | closed {f : Frame} {fs : List Frame} (by_ev : f.ClosedBy ev) : Step ev (f :: fs) fs
  | done {t : Task} {start : World} {fs : List Frame} (by_ev : ev = .taskDone t) :
      Step ev (.task t start :: fs) (count fs)

/-- A flush of the phases that is under way. -/
def isPhases : Frame → Bool
  | .task .phases _ => true
  | _ => false

/-- Tasks stand on drains, jobs on flushes of the phases, and bodies of hooks on their jobs. -/
def Stacked : List Frame → Prop
  | [] => True
  | .task _ _ :: rest => (∃ n start, rest.head? = some (.draining n start)) ∧ Stacked rest
  | .job _ _ :: rest => (∃ start, rest.head? = some (.task .phases start)) ∧ Stacked rest
  | .hookBody k _ _ :: rest => (∃ start, rest.head? = some (.job k start)) ∧ Stacked rest
  | _ :: rest => Stacked rest

variable {f : Frame} {fs : List Frame} {k : Nat}

theorem Stacked.tail (h : Stacked (f :: fs)) : Stacked fs := by
  cases f <;> first | exact h | exact h.2

theorem stacked_count (h : Stacked fs) : Stacked (count fs) := by
  unfold count
  split <;> exact h

theorem mem_of_mem_count (h : f ∈ count fs) : f ∈ fs ∨ ∃ n start, f = .draining n start := by
  unfold count at h
  split at h
  · rcases List.mem_cons.1 h with rfl | h
    · exact .inr ⟨_, _, rfl⟩
    · exact .inl (List.mem_cons_of_mem _ h)
  · exact .inl h

theorem Step.mem {ev : Event} {before after : List Frame} (h : Step ev before after) (hf : f ∈ after) :
    f.OpenedBy ev ∨ f ∈ before ∨ ∃ n start, f = .draining n start := by
  cases h with
  | same => exact .inr (.inl hf)
  | opened hby =>
    rcases List.mem_cons.1 hf with rfl | hf
    · exact .inl hby
    · exact .inr (.inl hf)
  | closed _ => exact .inr (.inl (List.mem_cons_of_mem _ hf))
  | done _ => exact .inr ((mem_of_mem_count hf).imp (List.mem_cons_of_mem _) id)

/-- What is read off the frames is left alone by a step that opens and closes nothing that counts. -/
theorem Step.read_eq {β : Type} {r : List Frame → β} {ev : Event} {before after : List Frame}
    (h : Step ev before after)
    (hskip : ∀ f fs, f.OpenedBy ev ∨ f.ClosedBy ev → r (f :: fs) = r fs)
    (hdone : ∀ t start fs, ev = .taskDone t → r (count fs) = r (.task t start :: fs)) :
    r after = r before := by
  cases h with
  | same => rfl
  | opened hby => exact hskip _ _ (.inl hby)
  | closed hby => exact (hskip _ _ (.inr hby)).symm
  | done hev => exact hdone _ _ _ hev

theorem countP_count (fs : List Frame) : (count fs).countP isPhases = fs.countP isPhases := by
  unfold count
  split <;> simp [isPhases]

theorem eq_of_isPhases (h : f.isPhases = true) : ∃ start, f = .task .phases start := by
  unfold isPhases at h
  split at h
  · exact ⟨_, rfl⟩
  · cases h

theorem Stacked.step {ev : Event} {before after : List Frame} (hstep : Step ev before after)
    (h : Stacked before)
    (htask : ∀ t, ev.taken = [t] → ∃ n start, before.head? = some (.draining n start))
    (hjob : ∀ k, ev = .jobBegun k → ∃ start, before.head? = some (.task .phases start))
    (hbody : ∀ k providers saved, ev = .bodyBegun k providers saved →
      ∃ start, before.head? = some (.job k start)) : Stacked after := by
  cases hstep with
  | same => exact h
  | closed _ => exact h.tail
  | done _ => exact stacked_count h.tail
  | opened hby =>
    rename_i f
    cases f with
    | task t start => exact ⟨htask t hby, h⟩
    | job k start => exact ⟨hjob k hby, h⟩
    | hookBody k before start =>
      obtain ⟨providers, saved, hby⟩ := hby
      exact ⟨hbody k providers saved hby, h⟩
    | _ => exact h

theorem Stacked.phases (h : Stacked fs) {start : World} (hk : .job k start ∈ fs) :
    ∃ start, .task .phases start ∈ fs := by
  induction fs with
  | nil => cases hk
  | cons f rest ih =>
    rcases List.mem_cons.1 hk with rfl | hk
    · obtain ⟨⟨flush, hflush⟩, -⟩ := h
      exact ⟨flush, List.mem_cons_of_mem _ (List.mem_of_head? hflush)⟩
    · obtain ⟨flush, hflush⟩ := ih h.tail hk
      exact ⟨flush, List.mem_cons_of_mem _ hflush⟩

end Frame

namespace Course

variable {c d : Course} {ev : Event} {k : Nat}

theorem next_of_taken {t : Task} (h : c.history.Allows ev) (ht : ev.taken = [t]) :
    c.history.Next t := by
  cases ev with
  | taskBegun t' =>
    cases ht
    exact h.1
  | committed | lapsed | refused =>
    cases ht
    exact h.1
  | _ => cases ht

theorem tasks_step (h : c.history.Allows ev) :
    c.world.tasks ++ ev.added c.world = ev.taken ++ (c.push ev h).world.tasks := by
  have hnext {t : Task} (hn : c.history.Next t) : c.world.tasks = t :: c.world.tasks.tail := by
    obtain ⟨tail, htail⟩ := List.head?_eq_some_iff.1 hn.1
    rw [show c.world.tasks = t :: tail from htail]
    rfl
  rw [world_push]
  cases ev with
  | aside w => simp [Event.added, Event.taken, Event.world, World.Aside.tasks h, Course.world]
  | taskBegun t => simpa [Event.added, Event.taken, Event.world] using hnext h.1
  | committed s | lapsed s | refused s =>
    simpa [Event.added, Event.taken, Event.world] using hnext h.1
  | scheduled e => simp [Event.added, Event.taken, Event.world, World.awaiting_one]
  | composing s =>
    simp only [Event.added, Event.taken, Event.world, World.opened_eq, List.nil_append]
    split <;> simp
  | jobQueued k =>
    by_cases hq : c.world.phases.flushQueued = true <;>
      simp [Event.added, Event.taken, Event.world, Hook.PhaseQueue.push_fst, hq]
  | queued | firstRunQueued => rfl
  | _ => exact List.append_nil _

theorem frames_cons {frame : Frame} (h : c.history.frames.head? = some frame) :
    ∃ rest, c.frames = frame :: rest := List.head?_eq_some_iff.1 h

theorem frames_closed {frame : Frame} (h : c.history.Allows ev)
    (hhead : c.history.frames.head? = some frame) (htail : (c.push ev h).frames = c.frames.tail) :
    c.frames = frame :: (c.push ev h).frames := by
  obtain ⟨rest, hrest⟩ := frames_cons hhead
  rw [htail, hrest, List.tail_cons]

theorem frames_taskDone {t : Task} (h : c.history.Allows (.taskDone t)) :
    ∃ start rest, c.frames = .task t start :: rest ∧
      (c.push (.taskDone t) h).frames = Frame.count rest := by
  obtain ⟨start, hhead, -⟩ := id h
  obtain ⟨rest, hrest⟩ := frames_cons hhead
  refine ⟨start, rest, hrest, ?_⟩
  rw [frames_push, Event.frames, hrest]
  rfl

/-- A step opens something, closes what was opened last, or leaves it all as it is. -/
theorem frames_step (h : c.history.Allows ev) : Frame.Step ev c.frames (c.push ev h).frames := by
  have hclosed {frame : Frame} (hc : c.history.frames.head? = some frame) (hby : frame.ClosedBy ev)
      (htail : (c.push ev h).frames = c.frames.tail) :
      Frame.Step ev c.frames (c.push ev h).frames := by
    rw [frames_closed h hc htail]
    exact .closed hby
  -- An event opens a frame, closes the top one, or leaves them as they are; the end of a task also
  -- counts it for the drain below.
  cases ev with
  | computing => exact .opened (.inl rfl)
  | recomputing => exact .opened (.inr rfl)
  | started | bodyBegun => exact .opened ⟨_, _, rfl⟩
  | provided | composing => exact .opened ⟨_, rfl⟩
  | hidden | updating | jobBegun | cleanupBegun | draining => exact .opened rfl
  | taskBegun | committed | lapsed | refused => exact .opened rfl
  | shown | withdrawn => exact hclosed h rfl rfl
  | recomputed =>
    obtain ⟨_, hc, -⟩ := id h
    exact hclosed hc ⟨_, .inr rfl⟩ rfl
  | computed =>
    obtain ⟨⟨_, hc, -⟩, -⟩ := id h
    exact hclosed hc ⟨_, .inl rfl⟩ rfl
  | finished =>
    obtain ⟨_, _, _, hc, -⟩ := id h
    exact hclosed hc rfl rfl
  | updated =>
    obtain ⟨-, _, _, _, hc, -⟩ := id h
    exact hclosed hc ⟨_, rfl⟩ rfl
  | composed =>
    obtain ⟨_, hc, -⟩ := id h
    exact hclosed hc ⟨_, rfl⟩ rfl
  | jobDone =>
    obtain ⟨_, hc, -⟩ := id h
    exact hclosed hc rfl rfl
  | cleanupEnded =>
    obtain ⟨_, _, _, hc, -⟩ := id h
    exact hclosed hc rfl rfl
  | bodyEnded =>
    obtain ⟨_, _, _, hc, -⟩ := id h
    exact hclosed hc ⟨_, rfl⟩ rfl
  | drained =>
    obtain ⟨⟨_, hc, -⟩, -⟩ := id h
    exact hclosed hc rfl rfl
  | taskDone t =>
    obtain ⟨start, rest, hrest, hcount⟩ := frames_taskDone h
    rw [hrest, hcount]
    exact .done rfl
  | _ => exact .same

theorem phases_frames (h : c.history.Allows ev) (hbegun : ev ≠ .taskBegun .phases)
    (hdone : ev ≠ .taskDone .phases) :
    (c.push ev h).frames.countP Frame.isPhases = c.frames.countP Frame.isPhases := by
  have hother {f : Frame} (hf : ∀ start, f ≠ .task .phases start) (fs : List Frame) :
      (f :: fs).countP Frame.isPhases = fs.countP Frame.isPhases := by
    refine List.countP_cons_of_neg fun hp => ?_
    obtain ⟨start, rfl⟩ := Frame.eq_of_isPhases hp
    exact hf start rfl
  refine (frames_step h).read_eq (r := List.countP Frame.isPhases) (fun f fs hby => hother ?_ fs)
    fun t start fs hev => ?_
  · rintro start rfl
    obtain hby | hby := hby
    · cases ev <;> cases hby
      exact hbegun rfl
    · exact hby
  · rw [Frame.countP_count]
    refine (hother ?_ fs).symm
    rintro start ⟨⟩
    exact hdone hev

theorem head_of_ready (h : c.history.Ready k) : ∃ start, c.frames.head? = some (.job k start) := by
  obtain ⟨hhead, -⟩ | ⟨-, hframe⟩ := h
  · obtain ⟨g, hg⟩ := List.head?_eq_some_iff.1 hhead
    have hframes : c.frames = History.frames (.jobBegun k :: g) := congrArg History.frames hg
    rw [hframes]
    exact ⟨_, rfl⟩
  · exact hframe

theorem stacked (hc : c.Punctual) : Frame.Stacked c.frames := by
  refine punctual_induction (motive := fun c => Frame.Stacked c.frames) trivial ?_ hc
  intro c ev h _ hdue ih
  refine ih.step (frames_step h) (fun t ht => (next_of_taken h ht).2) (fun k hev => ?_)
    fun k providers before hev => ?_
  · subst hev
    exact h.1
  · subst hev
    cases hdue with
    | ordinary _ hord => cases hord
    | bodyBegun hready => exact head_of_ready hready

theorem exists_push {g : History} (hg : c.history = ev :: g) :
    ∃ (b : Course) (h : b.history.Allows ev), c = b.push ev h := by
  obtain ⟨history, hlawful⟩ := c
  obtain rfl : history = ev :: g := hg
  exact ⟨⟨g, hlawful.1⟩, hlawful.2, rfl⟩

theorem settled_outside (hc : c.Punctual) (hout : ∀ t start, .task t start ∉ c.frames) :
    c.Settled := by
  intro ev hev hurgent
  obtain ⟨g, hg⟩ := List.head?_eq_some_iff.1 hev
  obtain ⟨b, h, rfl⟩ := exists_push hg
  have hbefore := stacked hc.1
  have hhead {f : Frame} {fs : List Frame} (hf : fs.head? = some f) : f ∈ fs := List.mem_of_head? hf
  have hjob {k : Nat} {start : World} : .job k start ∉ (b.push ev h).frames := fun hk => by
    obtain ⟨flush, hflush⟩ := (stacked hc).phases hk
    exact hout .phases flush hflush
  cases ev with
  | taskBegun t => exact hout t _ List.mem_cons_self
  | jobBegun k => exact hjob List.mem_cons_self
  | phasesOver =>
    obtain ⟨⟨flush, hflush⟩, -⟩ := id h
    exact hout .phases flush (hhead hflush)
  | jobDone k =>
    obtain ⟨start, hframe, -⟩ := id h
    rw [frames_closed h hframe rfl] at hbefore
    obtain ⟨⟨flush, hflush⟩, -⟩ := hbefore
    exact hout .phases flush (hhead hflush)
  | bodyEnded k providers c' =>
    obtain ⟨start, x, v, hframe, -⟩ := id h
    rw [frames_closed h hframe rfl] at hbefore
    obtain ⟨⟨start, hstart⟩, -⟩ := hbefore
    exact hjob (hhead hstart)
  | bodySkipped k =>
    obtain ⟨-, hdue⟩ : b.Punctual ∧ b.history.Due (.bodySkipped k) := hc
    cases hdue with
    | ordinary _ hord => cases hord
    | bodySkipped hready =>
      obtain ⟨start, hstart⟩ := head_of_ready (c := b) hready
      exact hjob (k := k) (hhead hstart)
  | _ => exact hurgent

end Course

end FineGrain

import FineGrain.Proofs.Course.Event
import Mathlib.Order.Defs.PartialOrder
/-!
Courses of runs. A history lists the steps that were made, the last one first; it tells the world and
what is under way. A course is a history in which every step was allowed when it was made.
-/

namespace FineGrain

open Act

namespace World

def value (w : World) (s : Nat) : Value := ((w.signals.get? s).getD default).value

def Writable (w : World) (s : Nat) : Prop :=
  ((w.signals.get? s).getD default).writing = false ∧
    ((w.signals.get? s).getD default).readers = 0

/-- A world that differs in what no step is about: in records, refs, probes and contexts, in who owns
or borrows what is there, and in handles that are gone. -/
structure Aside (w w' : World) : Prop where
  graph : w'.graph = w.graph
  tasks : w'.tasks = w.tasks
  phases : w'.phases = w.phases
  providers : w'.providers = w.providers
  effects : w'.effects = w.effects
  hooks : w'.hooks = w.hooks
  next : w.next ≤ w'.next
  signals : ∀ s, (w'.signals.get? s).map (fun x => { x with clones := 0, readers := 0 }) =
    (w.signals.get? s).map fun x => { x with clones := 0, readers := 0 }
  memos : ∀ m, (w'.memos.get? m).map (fun x => { x with owners := 0, readers := 0 }) =
    (w.memos.get? m).map fun x => { x with owners := 0, readers := 0 }
  dispatchers : ∀ d y, w'.dispatchers.get? d = some y →
    ∃ x, w.dispatchers.get? d = some x ∧ y.signal = x.signal ∧ y.reduce = x.reduce
  handles : ∀ k y, w'.handles.get? k = some y → ∃ x, w.handles.get? k = some x ∧ y.handle = x.handle

end World

abbrev History := List Event

namespace History

def world (h : History) : World := h.foldr Event.world .empty

def frames : History → List Frame
  | [] => []
  | ev :: h => ev.frames (world h) (world (ev :: h)) (frames h)

/-- A signal of the given kind has been made. -/
def Made (h : History) (s : Nat) (kind : Kind) : Prop := ∃ v clones, .signalMade s kind v clones ∈ h

/-- A handle stands for a signal of its kind. -/
def Fits (h : History) : Handle → Prop
  | .signal s | .signalPair s => h.Made s .plain
  | .state s | .reducer s _ => h.Made s .state
  | _ => True

def Next (h : History) (t : Task) : Prop :=
  h.world.tasks.head? = some t ∧ ∃ n start, h.frames.head? = some (.draining n start)

/-- Code that was started in the world `start` has ended now, with an answer. -/
def Completes {α : Type} (h : History) (start : World) (code : Host → Act α) (v : α) : Prop :=
  ∃ depth, start.run (code (.ofDepth depth)) = (.ok v, h.world)

/-- A step may be made next. -/
def Allows (h : History) : Event → Prop
  | .aside w => h.world.Aside w
  | .tracked s v => v = h.world.value s
  | .hidden observers => observers = h.world.graph.observers
  | .shown observers => h.frames.head? = some (.untracked observers)
  | .provided _ before => before = h.world.providers
  | .withdrawn providers => h.frames.head? = some (.providing providers)
  | .effectMade e _ _ => e = h.world.next
  | .started e _ providers before => before = h.world.providers ∧
      ∃ x, h.world.effects.get? e = some x ∧ x.running = false ∧ x.providers = providers
  | .finished e providers => ∃ depth computation start,
      h.frames.head? = some (.effect e providers depth computation start) ∧
      start.run (compute (.ofDepth depth) computation) = (.ok ⟨⟩, h.world)
  | .skipped e => ∃ x, h.world.effects.get? e = some x ∧ x.running = true
  | .scheduled e => h.world.timing? e = some .deferred
  | .flushed => ∃ start, h.frames.head? = some (.task .flush start)
  | .effectGone e => (h.world.effects.get? e).isSome
  | .signalMade s _ _ _ => s = h.world.next
  | .assigned s _ | .updating s _ _ => h.Made s .plain ∧ h.world.Writable s
  | .updated s v => h.Made s .plain ∧ ∃ depth body start,
      h.frames.head? = some (.updating s depth body start) ∧
      start.run ((Host.ofDepth depth).call body [start.value s]) = (.ok v, h.world)
  | .signalGone s => ∃ x, h.world.signals.get? s = some x ∧ x.clones ≤ 1
  | .composing s _ first current => h.Made s .state ∧
      first = !((h.world.signals.get? s).getD default).dirty ∧
      current = World.pendingValue ((h.world.signals.get? s).getD default)
  | .composed s write start v => ∃ current,
      h.frames.head? = some (.composing s write current start) ∧
      start.run (write.next current) = (.ok v, h.world)
  | .committed s v => h.Next (.commit s) ∧ h.world.Writable s ∧
      ((h.world.signals.get? s).getD default).cache = some v
  | .lapsed s => h.Next (.commit s) ∧ ((h.world.signals.get? s).getD default).cache = none
  | .refused s => h.Next (.commit s) ∧ ¬ h.world.Writable s
  | .dispatcherMade d s _ => d = h.world.next ∧ h.Made s .state
  | .memoMade m _ _ => m = h.world.next
  | .computing m => (h.world.memos.get? m).isSome
  | .recomputing m => ((h.world.memos.get? m).bind (·.cache)).isNone
  | .computed m c => (∃ start, h.frames.head? = some (.factory m start) ∧
      h.Completes start (produce · ((start.memos.get? m).getD default).factory) c) ∧
      ∀ x, h.world.memos.get? m = some x → x.bound = true → x.readers = 0
  | .recomputed m c => ∃ start, h.frames.head? = some (.factory m start) ∧
      h.Completes start (produce · ((start.memos.get? m).getD default).factory) c
  | .memoBound m c => ((h.world.memos.get? m).bind (·.cache)).getD c = c ∨ .recomputed m c ∈ h
  | .memoGone m => ∃ x, h.world.memos.get? m = some x ∧ x.owners ≤ 1
  | .hookMade k _ _ _ _ => k = h.world.next
  | .jobQueued k phase => ∃ x, h.world.hooks.get? k = some x ∧ x.queued = false ∧ x.phase = phase
  | .jobBegun k => (∃ start, h.frames.head? = some (.task .phases start)) ∧
      h.world.phases.pop.1 = some k
  | .phasesOver => (∃ start, h.frames.head? = some (.task .phases start)) ∧
      h.world.phases.pop.1 = none
  | .jobDone k => ∃ start, h.frames.head? = some (.job k start) ∧
      h.Completes start (runHook · k) ⟨⟩
  | .cleanupBegun k c => (h.world.hooks.get? k).bind (·.cleanup) = some c
  | .cleanupEnded k => ∃ c start v, h.frames.head? = some (.cleanup k c start) ∧
      h.Completes start (·.call c.body [c.argument]) v
  | .bodyBegun k providers before => before = h.world.providers ∧
      ∃ x, h.world.hooks.get? k = some x ∧ x.running = false ∧ x.providers = providers
  | .bodyEnded k providers c => ∃ start x v, h.frames.head? = some (.hookBody k providers start) ∧
      start.hooks.get? k = some x ∧ h.Completes start (·.call x.body []) v ∧
      c = answered x.onCleanup v
  | .bodySkipped k => ∃ x, h.world.hooks.get? k = some x ∧ x.running = true
  | .hookDisposed k => ∃ x, h.world.hooks.get? k = some x ∧ x.disposed = false
  | .queued _ | .firstRunQueued _ | .draining => True
  | .taskBegun t => h.Next t ∧ t.commit? = none
  | .taskDone t => ∃ start, h.frames.head? = some (.task t start) ∧
      h.Completes start (runTask · t) ⟨⟩
  | .drained n => (∃ start, h.frames.head? = some (.draining n start) ∧ h.Completes start drain n) ∧
      h.world.tasks = []
  | .bound number _ handle => number = h.world.next ∧ h.Fits handle

/-- Every step was allowed when it was made. -/
def Lawful : History → Prop
  | [] => True
  | ev :: h => Lawful h ∧ Allows h ev

end History

/-- The course of a run up to some point. -/
structure Course where
  history : History
  lawful : history.Lawful

namespace Course

variable {c d : Course} {ev : Event} {s : Nat} {kind : Kind}

def world (c : Course) : World := c.history.world

def frames (c : Course) : List Frame := c.history.frames

def start : Course := ⟨[], trivial⟩

def push (c : Course) (ev : Event) (h : c.history.Allows ev) : Course := ⟨ev :: c.history, c.lawful, h⟩

@[simp] theorem world_start : start.world = .empty := rfl

@[simp] theorem frames_start : start.frames = [] := rfl

@[simp] theorem history_push (h : c.history.Allows ev) : (c.push ev h).history = ev :: c.history := rfl

@[simp] theorem world_push (h : c.history.Allows ev) : (c.push ev h).world = ev.world c.world := rfl

@[simp] theorem frames_push (h : c.history.Allows ev) :
    (c.push ev h).frames = ev.frames c.world (ev.world c.world) c.frames := rfl

@[elab_as_elim]
theorem induction {motive : Course → Prop} (start : motive start)
    (push : ∀ c ev (h : c.history.Allows ev), motive c → motive (c.push ev h)) (c : Course) :
    motive c := by
  obtain ⟨h, hlawful⟩ := c
  induction h with
  | nil => exact start
  | cons ev h ih => exact push ⟨h, hlawful.1⟩ ev hlawful.2 (ih hlawful.1)

/-- One course goes on where another one ends. -/
instance : Preorder Course where
  le c d := c.history <:+ d.history
  le_refl c := List.suffix_refl c.history
  le_trans _ _ _ := List.IsSuffix.trans

theorem le_push (h : c.history.Allows ev) : c ≤ c.push ev h := List.suffix_cons ev c.history

@[elab_as_elim]
theorem le_induction {motive : ∀ d, c ≤ d → Prop} (start : motive c (le_refl c))
    (push : ∀ e ev (h : e.history.Allows ev) (hle : c ≤ e), motive e hle →
      motive (e.push ev h) (le_trans hle (le_push h))) {d : Course} (hle : c ≤ d) : motive d hle := by
  induction d using Course.induction with
  | start =>
    obtain rfl : c = Course.start := by
      obtain ⟨h, hlawful⟩ := c
      obtain rfl : h = [] := List.suffix_nil.1 hle
      rfl
    exact start
  | push d ev h ih =>
    rcases List.suffix_cons_iff.1 (show c.history <:+ ev :: d.history from hle) with heq | hle
    · obtain rfl : c = d.push ev h := by
        obtain ⟨g, hlawful⟩ := c
        obtain rfl : g = ev :: d.history := heq
        rfl
      exact start
    · exact push d ev h hle (ih hle)

theorem made_mono (h : c ≤ d) (hs : c.history.Made s kind) : d.history.Made s kind := by
  obtain ⟨v, clones, hmem⟩ := hs
  exact ⟨v, clones, List.IsSuffix.subset h hmem⟩

theorem fits_mono {handle : Handle} (h : c ≤ d) (hf : c.history.Fits handle) :
    d.history.Fits handle := by
  cases handle <;> first | exact made_mono h hf | trivial

end Course

end FineGrain

import FineGrain.Proofs.Course.Cleanups
import FineGrain.Proofs.Program.Value
import FineGrain.Proofs.World.Indifference
/-!
Where contexts are looked up. The providers that code sees are bounded by scopes: whatever is provided
around it, up to the snapshot that it is evaluated in, or the body that it is part of. A body brings
along the providers that were visible where its effect, memo or hook was made; those around its run stay
out of sight.
-/

namespace FineGrain

open Act

def Provider.nearest? (context : NodeId) (l : List Provider) : Option Value :=
  (l.find? (·.context == context)).map (·.value)

/-- What an evaluation is inside of.

* `provide`: a value is provided, on top of what is visible outside
* `snapshot`: exactly these providers are visible
* `body`: a run of an effect or of the body of a hook, with what was visible where it was made -/
inductive Scope where
  | provide (p : Provider)
  | snapshot (providers : List Provider)
  | body (owner : Nat) (providers : List Provider)

namespace Scope

/-- The providers that are visible inside of some scopes, the innermost first. -/
def visible : List Scope → List Provider
  | [] => []
  | .provide p :: outer => p :: visible outer
  | .snapshot providers :: _ | .body _ providers :: _ => providers

/-- Look up a context from the inside out. A snapshot and a body end the search. -/
def resolve (context : NodeId) : List Scope → Option Value
  | [] => none
  | .provide p :: outer => if p.context = context then some p.value else resolve context outer
  | .snapshot providers :: _ | .body _ providers :: _ => Provider.nearest? context providers

theorem resolve_eq (context : NodeId) (scopes : List Scope) :
    resolve context scopes = Provider.nearest? context (visible scopes) := by
  induction scopes with
  | nil => rfl
  | cons s outer ih =>
    cases s with
    | provide p =>
      rw [resolve, ih]
      by_cases h : p.context = context <;> simp [visible, Provider.nearest?, h]
    | snapshot | body => rfl

/-- The scope of an evaluation under given providers. -/
def opened (outer : List Scope) : List Provider → Scope
  | p :: rest => if rest = visible outer then .provide p else .snapshot (p :: rest)
  | [] => .snapshot []

theorem resolve_append_body (context : NodeId) (inner : List Scope) (k : Nat) (providers : List Provider)
    (outer : List Scope) : resolve context (inner ++ .body k providers :: outer) =
      resolve context (inner ++ [.body k providers]) := by
  induction inner with
  | nil => rfl
  | cons s inner ih =>
    cases s with
    | provide p => exact congrArg (if p.context = context then some p.value else ·) ih
    | snapshot | body => rfl

theorem visible_opened (outer : List Scope) (providers : List Provider) :
    visible (opened outer providers :: outer) = providers := by
  unfold opened
  split
  · split
    next h => exact congrArg _ h.symm
    next => rfl
  · rfl

theorem opened_visible (outer : List Scope) (p : Provider) :
    opened outer (p :: visible outer) = .provide p := if_pos rfl

/-- Whose body runs. -/
def owner? : Scope → Option Nat
  | .body k _ => some k
  | _ => none

theorem owner?_opened (outer : List Scope) (providers : List Provider) :
    (opened outer providers).owner? = none := by
  unfold opened
  split <;> try split
  all_goals rfl

/-- What each scope has covered, and whose it is. -/
def covered : List Scope → List (Option Nat × List Provider)
  | [] => []
  | s :: outer => (s.owner?, visible outer) :: covered outer

end Scope

namespace Frame

/-- The providers that are put back at the end of what is under way, and whose run it is. -/
def covered? : Frame → Option (Option Nat × List Provider)
  | .effect e before _ _ _ => some (some e, before)
  | .providing before => some (none, before)
  | .hookBody k before _ => some (some k, before)
  | _ => none

theorem covered_count (fs : List Frame) :
    (count fs).filterMap covered? = fs.filterMap covered? := by
  unfold count
  split <;> rfl

end Frame

namespace Event

/-- What a step makes. The effects of a memo and of a hook are numbered next to them. -/
def makes : Event → List Nat
  | effectMade e _ _ => [e]
  | memoMade m _ _ => [m + 1]
  | hookMade k _ _ _ _ => [k, k + 1]
  | _ => []

/-- A step that opens no scope and closes none. -/
def Level : Event → Prop
  | provided _ _ | started _ _ _ _ | bodyBegun _ _ _ | withdrawn _ | finished _ _ | bodyEnded _ _ _ => False
  | _ => True

end Event

/-- The scopes around an evaluation, the innermost first, and the providers that were visible where
effects, memos and hooks were made. -/
structure Scoping where
  scopes : List Scope
  made : Nat → List Provider

def Scoping.after (s : Scoping) (ev : Event) : Scoping where
  scopes := match ev with
    | .provided providers _ => Scope.opened s.scopes providers :: s.scopes
    | .started k _ _ _ | .bodyBegun k _ _ => .body k (s.made k) :: s.scopes
    | .withdrawn _ | .finished _ _ | .bodyEnded _ _ _ => s.scopes.tail
    | _ => s.scopes
  made k := if k ∈ ev.makes then Scope.visible s.scopes else s.made k

def History.scoping (h : History) : Scoping := h.foldr (fun ev s => s.after ev) ⟨[], fun _ => []⟩

namespace Course

variable {c d : Course} {ev : Event}

/-- The scopes around the evaluation that a course has come to, the innermost first. -/
def scopes (c : Course) : List Scope := c.history.scoping.scopes

/-- The providers that were visible where an effect, a memo or a hook was made. -/
def made (c : Course) (k : Nat) : List Provider := c.history.scoping.made k

/-- The world and what is under way go with the scopes. -/
structure Scoped (c : Course) : Prop where
  visible : c.world.providers = Scope.visible c.scopes
  covered : c.frames.filterMap Frame.covered? = Scope.covered c.scopes
  effects : ∀ e x, c.world.effects.get? e = some x → x.providers = c.made e
  hooks : ∀ k x, c.world.hooks.get? k = some x → x.providers = c.made k

theorem scopes_push_level (h : c.history.Allows ev) (hl : ev.Level) : (c.push ev h).scopes = c.scopes := by
  cases ev <;> first | rfl | cases hl

theorem providers_push_level (h : c.history.Allows ev) (hl : ev.Level) :
    (c.push ev h).world.providers = c.world.providers := by
  cases ev with
  | aside w => exact World.Aside.providers h
  | composing s => simp [Event.world, World.opened_eq]
  | _ => first | rfl | cases hl

theorem covered_push_level (h : c.history.Allows ev) (hl : ev.Level) :
    (c.push ev h).frames.filterMap Frame.covered? = c.frames.filterMap Frame.covered? := by
  refine (frames_step h).read_eq (r := List.filterMap Frame.covered?)
    (fun f fs hby => List.filterMap_cons_none ?_) fun _ _ fs _ => Frame.covered_count fs
  cases f with
  | effect => obtain ⟨_, _, rfl⟩ | rfl := hby <;> cases hl
  | providing => obtain ⟨_, rfl⟩ | rfl := hby <;> cases hl
  | hookBody => obtain ⟨_, _, rfl⟩ | ⟨_, rfl⟩ := hby <;> cases hl
  | _ => rfl

theorem covered_tail {frame : Frame} {owner : Option Nat} {providers : List Provider} (hc : c.Scoped)
    (hhead : c.history.frames.head? = some frame) (hframe : frame.covered? = some (owner, providers)) :
    providers = Scope.visible c.scopes.tail ∧
      c.frames.tail.filterMap Frame.covered? = Scope.covered c.scopes.tail := by
  obtain ⟨rest, hrest⟩ := frames_cons hhead
  have hcovered := hc.covered
  rw [hrest, List.filterMap_cons_some hframe] at hcovered
  rw [hrest]
  cases hscopes : c.scopes with
  | nil =>
    rw [hscopes] at hcovered
    cases hcovered
  | cons s outer =>
    rw [hscopes] at hcovered
    obtain ⟨hone, hrest⟩ := List.cons.inj hcovered
    exact ⟨congrArg Prod.snd hone, hrest⟩

theorem made_push (h : c.history.Allows ev) (k : Nat) :
    (c.push ev h).made k = if k ∈ ev.makes then Scope.visible c.scopes else c.made k := rfl

theorem next_le_makes (h : c.history.Allows ev) {k : Nat} (hk : k ∈ ev.makes) : c.world.next ≤ k := by
  cases ev with
  | effectMade e =>
    obtain rfl : e = c.world.next := h
    obtain rfl := List.mem_singleton.1 hk
    exact Nat.le_refl _
  | memoMade m =>
    obtain rfl : m = c.world.next := h
    obtain rfl := List.mem_singleton.1 hk
    exact Nat.le_succ _
  | hookMade m =>
    obtain rfl : m = c.world.next := h
    simp only [Event.makes, List.mem_cons, List.not_mem_nil, or_false] at hk
    omega
  | _ => cases hk

theorem made_stays (h : c.history.Allows ev) {k : Nat} (hk : k < c.world.next) :
    (c.push ev h).made k = c.made k :=
  if_neg fun hmem => absurd (next_le_makes h hmem) (Nat.not_le.2 hk)

theorem effect_scoped (hc : c.Scoped) (h : c.history.Allows ev) {e : NodeId} {x : Effect}
    (hx : (ev.world c.world).effects.get? e = some x) : x.providers = (c.push ev h).made e := by
  have hold {y : Effect} (hy : c.world.effects.get? e = some y) (hsame : x.providers = y.providers) :
      x.providers = (c.push ev h).made e := by
    rw [made_stays h (effect_lt hy), hsame, hc.effects e y hy]
  have hnew (he : e ∈ ev.makes) (hsame : x.providers = c.world.providers) :
      x.providers = (c.push ev h).made e := by
    rw [made_push, if_pos he, hsame, hc.visible]
  cases ev with
  | aside w => exact hold (World.Aside.effects h ▸ hx :) rfl
  | effectMade k | memoMade k | hookMade k =>
    obtain rfl : k = c.world.next := h
    rcases Store.of_put hx with ⟨rfl, rfl⟩ | hx
    · exact hnew (by simp [Event.makes]) rfl
    · exact hold hx rfl
  | effectGone k => exact hold (Store.of_erase hx) rfl
  | started k | finished k =>
    obtain ⟨y, hy, rfl⟩ := Store.of_modify hx
    refine hold hy ?_
    split <;> rfl
  | composing s => exact hold (by simpa [Event.world, World.opened_eq] using hx) rfl
  | _ => exact hold hx rfl

theorem hook_scoped (hc : c.Scoped) (h : c.history.Allows ev) {k : Nat} {x : HookSlot}
    (hx : (ev.world c.world).hooks.get? k = some x) : x.providers = (c.push ev h).made k := by
  have hold {y : HookSlot} (hy : c.world.hooks.get? k = some y) (hsame : x.providers = y.providers) :
      x.providers = (c.push ev h).made k := by
    rw [made_stays h (hook_lt hy), hsame, hc.hooks k y hy]
  have hnew (hk : k ∈ ev.makes) (hsame : x.providers = c.world.providers) :
      x.providers = (c.push ev h).made k := by
    rw [made_push, if_pos hk, hsame, hc.visible]
  cases ev with
  | aside w => exact hold (World.Aside.hooks h ▸ hx :) rfl
  | hookMade m =>
    obtain rfl : m = c.world.next := h
    rcases Store.of_put hx with ⟨rfl, rfl⟩ | hx
    · exact hnew (by simp [Event.makes]) rfl
    · exact hold hx rfl
  | jobQueued m | jobBegun m | cleanupBegun m | bodyBegun m | bodyEnded m | hookDisposed m =>
    obtain ⟨y, hy, rfl⟩ := Store.of_modify hx
    refine hold hy ?_
    split <;> rfl
  | composing s => exact hold (by simpa [Event.world, World.opened_eq] using hx) rfl
  | _ => exact hold hx rfl

theorem visible_push (hc : c.Scoped) (h : c.history.Allows ev) :
    (c.push ev h).world.providers = Scope.visible (c.push ev h).scopes ∧
      (c.push ev h).frames.filterMap Frame.covered? = Scope.covered (c.push ev h).scopes := by
  by_cases hl : ev.Level
  · rw [providers_push_level h hl, covered_push_level h hl, scopes_push_level h hl]
    exact ⟨hc.visible, hc.covered⟩
  cases ev with
  | provided providers before =>
    obtain rfl : before = c.world.providers := h
    refine ⟨(Scope.visible_opened c.scopes providers).symm, ?_⟩
    rw [show Scope.covered _ = (_, Scope.visible c.scopes) :: Scope.covered c.scopes from rfl,
      Scope.owner?_opened, ← hc.visible, ← hc.covered]
    rfl
  | started k depth providers before =>
    obtain ⟨rfl, x, hx, -, rfl⟩ := id h
    refine ⟨hc.effects k x hx, ?_⟩
    rw [show Scope.covered _ = (_, Scope.visible c.scopes) :: Scope.covered c.scopes from rfl,
      ← hc.visible, ← hc.covered]
    rfl
  | bodyBegun k providers before =>
    obtain ⟨rfl, x, hx, -, rfl⟩ := id h
    refine ⟨hc.hooks k x hx, ?_⟩
    rw [show Scope.covered _ = (_, Scope.visible c.scopes) :: Scope.covered c.scopes from rfl,
      ← hc.visible, ← hc.covered]
    rfl
  | withdrawn providers => exact covered_tail hc h rfl
  | finished k providers =>
    obtain ⟨_, _, _, hhead, -⟩ := id h
    exact covered_tail hc hhead rfl
  | bodyEnded k providers =>
    obtain ⟨_, _, _, hhead, -⟩ := id h
    exact covered_tail hc hhead rfl
  | _ => exact absurd trivial hl

theorem isScoped (c : Course) : c.Scoped := by
  induction c using Course.induction with
  | start => exact ⟨rfl, rfl, nofun, nofun⟩
  | push c ev h ih =>
    exact ⟨(visible_push ih h).1, (visible_push ih h).2, fun _ _ => effect_scoped ih h,
      fun _ _ => hook_scoped ih h⟩

/-! ### Evaluations -/

theorem scopes_step (h : c.history.Allows ev) : (∃ s, (c.push ev h).scopes = s :: c.scopes) ∨
    (c.push ev h).scopes = c.scopes ∨ (c.push ev h).scopes = c.scopes.tail := by
  by_cases hl : ev.Level
  · exact .inr (.inl (scopes_push_level h hl))
  cases ev with
  | provided | started | bodyBegun => exact .inl ⟨_, rfl⟩
  | withdrawn | finished | bodyEnded => exact .inr (.inr rfl)
  | _ => exact absurd trivial hl

theorem scopes_stay (hle : c ≤ d) :
    c.scopes <:+ d.scopes ∨ ∃ b, c ≤ b ∧ b ≤ d ∧ b.scopes = c.scopes.tail := by
  induction hle using Course.le_induction with
  | start => exact .inl List.suffix_rfl
  | push d ev h hle ih =>
    rcases ih with ih | ⟨b, hcb, hbd, hb⟩
    · rcases scopes_step h with ⟨s, hs⟩ | hs | hs
      · exact .inl (hs ▸ ih.trans (List.suffix_cons s _))
      · exact .inl (hs ▸ ih)
      · cases hd : d.scopes with
        | nil =>
          rw [hd] at ih hs
          exact .inl (hs ▸ ih)
        | cons s outer =>
          rw [hd] at ih hs
          rcases List.suffix_cons_iff.1 ih with heq | ih
          · exact .inr ⟨d.push ev h, hle.trans (le_push h), le_refl _, by rw [hs, heq]⟩
          · exact .inl (hs ▸ ih)
    · exact .inr ⟨b, hcb, hbd.trans (le_push h), hb⟩

theorem exists_provided (c : Course) (providers : List Provider) : ∃ d, c ≤ d ∧
    d.scopes = Scope.opened c.scopes providers :: c.scopes ∧ d.world = c.world.under providers :=
  ⟨c.push (.provided providers c.world.providers) rfl, le_push _, rfl, rfl⟩

/-- Contexts are looked up in the scopes around the evaluation: innermost providers first, up to the
snapshot or the body that the code is part of.

* `use`, `tryUse`: what is found, or the default; `tryUse` answers null where nothing is found
* `beyond`: what is around a body is not looked at
* `covered`, `nested`: the scopes are those of what is under way, each with the providers that it has
  covered, and they stay until they are closed
* `provide`, `capture`, `runIn`: the operations on contexts and snapshots open these scopes
* `effectMade`, `memoMade`, `hookMade`: what is visible is noted where effects, memos and hooks are made
* `effect`, `body`: runs go on in a scope with what was noted, whatever is visible around them
* `indifferent`: they do and answer the same whatever is visible around them, and so does what sets
  them off
* `restored`: what was visible before is visible again -/
structure Resolves (c : Course) : Prop where
  use : ∀ host eval context v, ∃ act,
    contextOperation? host eval context v .useContext = some act ∧
      c.world.run act = (.ok ((Scope.resolve context c.scopes).getD v), c.world)
  tryUse : ∀ host eval context v, ∃ act,
    contextOperation? host eval context v .tryContext = some act ∧
      c.world.run act = (.ok ((Scope.resolve context c.scopes).getD .null), c.world)
  beyond : ∀ context inner k providers outer, c.scopes = inner ++ .body k providers :: outer →
    Scope.resolve context c.scopes = Scope.resolve context (inner ++ [.body k providers])
  covered : c.frames.filterMap Frame.covered? = Scope.covered c.scopes
  nested : ∀ d, c ≤ d → c.scopes <:+ d.scopes ∨ ∃ b, c ≤ b ∧ b ≤ d ∧ b.scopes = c.scopes.tail
  provide : ∀ host eval context v e inside, ∃ act,
    contextOperation? host eval context v (.provide e inside) = some act ∧
      ∀ (w : World) u, w.run (eval e) = (.ok u, c.world) → ∃ d : Course, c ≤ d ∧
        d.scopes = .provide ⟨context, u⟩ :: c.scopes ∧
        w.run act = d.world.run (do
          let a ← eval inside
          modify (·.under c.world.providers)
          return a)
  capture : ∀ host eval name,
    c.world.run (create host eval name .snapshot) = (.ok (.snapshot (Scope.visible c.scopes)), c.world)
  runIn : ∀ eval providers e, ∃ act, snapshotOperation? eval providers (.runIn e) = some act ∧
    ∃ d : Course, c ≤ d ∧ Scope.visible d.scopes = providers ∧ d.scopes.tail = c.scopes ∧
      c.world.run act = d.world.run (do
        let a ← eval e
        modify (·.under c.world.providers)
        return a)
  effectMade : ∀ host timing body, ∃ d : Course, c ≤ d ∧ d.scopes = c.scopes ∧
    d.made c.world.next = Scope.visible c.scopes ∧
    c.world.run (do newEffect host (← fresh) timing (.body body)) = d.world.run (match timing with
      | .render => runEffect host c.world.next
      | .deferred => queueTask (.firstRun c.world.next))
  memoMade : ∀ host factory dependencies, ∃ d : Course, c ≤ d ∧ d.scopes = c.scopes ∧
    d.made (c.world.next + 1) = Scope.visible c.scopes ∧
    c.world.run (newMemo host factory dependencies) = d.world.run (do
      runEffect host (c.world.next + 1)
      bindMemo host c.world.next
      return c.world.next) ∧
    ∀ w, d.world.run (runEffect host (c.world.next + 1)) = (.ok ⟨⟩, w) →
      w.providers = Scope.visible c.scopes
  hookMade : ∀ host phase body onCleanup dependencies, ∃ d : Course, c ≤ d ∧ d.scopes = c.scopes ∧
    d.made c.world.next = Scope.visible c.scopes ∧
    c.world.run (newHook host phase body onCleanup dependencies) = d.world.run (do
      queueTask (.firstRun (c.world.next + 1))
      return c.world.next)
  effect : ∀ n e x, c.world.effects.get? e = some x → x.running = false → ∃ d : Course, c ≤ d ∧
    d.scopes = .body e (c.made e) :: c.scopes ∧
    c.world.run (runEffect (.ofDepth n) e) = d.world.run (do
      compute (.ofDepth n) x.computation
      modify (·.under c.world.providers)
      onGraph (·.popObserver)
      modifyEffect e fun x => { x with running := false })
  body : ∀ host k x, c.world.hooks.get? k = some x → x.running = false → ∃ d : Course, c ≤ d ∧
    d.scopes = .body k (c.made k) :: c.scopes ∧
    c.world.run (runBody host k) = d.world.run (do
      let v ← host.call x.body []
      modify (·.under c.world.providers)
      modifyHook k fun y => { y with running := false, cleanup := answered x.onCleanup v })
  indifferent : ∀ host, (∀ e, c.world.Indifferent (runEffect host e)) ∧
    (∀ k, c.world.Indifferent (runBody host k)) ∧ (∀ s v, c.world.Indifferent (setSignal host s v)) ∧
    c.world.Indifferent (flush host) ∧ ∀ s, c.world.Indifferent (commit host s)
  restored : ∀ (providers : List Provider) (a : Act Value) v w,
    c.world.run (providing providers a) = (.ok v, w) → w.providers = c.world.providers

theorem run_provided? (c : Course) (context : NodeId) :
    c.world.run (provided? context) = (.ok (Scope.resolve context c.scopes), c.world) := by
  rw [Scope.resolve_eq, ← c.isScoped.visible]
  rfl

theorem resolves (c : Course) : c.Resolves where
  use host eval context v := ⟨_, rfl, World.run_bind_ok (c.run_provided? context) _⟩
  tryUse host eval context v := ⟨_, rfl, World.run_bind_ok (c.run_provided? context) _⟩
  beyond context inner k providers outer h := by rw [h, Scope.resolve_append_body]
  covered := c.isScoped.covered
  nested _ := scopes_stay
  provide host eval context v e inside := by
    refine ⟨_, rfl, fun w u hrun => ?_⟩
    obtain ⟨d, hle, hscopes, hw⟩ := c.exists_provided (⟨context, u⟩ :: Scope.visible c.scopes)
    refine ⟨d, hle, by rw [hscopes, Scope.opened_visible], ?_⟩
    rw [World.run_bind_ok hrun, hw, ← c.isScoped.visible]
    rfl
  capture host eval name := by
    rw [← c.isScoped.visible]
    rfl
  runIn eval providers e := by
    obtain ⟨d, hle, hscopes, hw⟩ := c.exists_provided providers
    refine ⟨_, rfl, d, hle, by rw [hscopes, Scope.visible_opened], by rw [hscopes]; rfl, ?_⟩
    rw [hw]
    rfl
  effectMade host timing body := by
    have hmade : c.history.Allows (.effectMade c.world.next timing body) := rfl
    refine ⟨c.push _ hmade, le_push _, rfl, if_pos List.mem_cons_self, ?_⟩
    cases timing <;>
      simp only [newEffect, World.run_bind, World.run_fresh, World.run_modify, world_push, Event.world]
  memoMade host factory dependencies := by
    have hmade : c.history.Allows (.memoMade c.world.next factory dependencies) := rfl
    refine ⟨c.push _ hmade, le_push _, rfl, if_pos List.mem_cons_self, ?_, fun w hrun => ?_⟩
    · simp only [newMemo, newEffect, World.run_bind, World.run_fresh, World.run_modify, world_push,
        Event.world]
    · rw [((World.Indifferent.runEffect _).ok _ _ hrun).1, ← c.isScoped.visible]
      rfl
  hookMade host phase body onCleanup dependencies :=
    ⟨c.push (.hookMade c.world.next phase body onCleanup dependencies) rfl, le_push _, rfl,
      if_pos List.mem_cons_self, rfl⟩
  effect n e x hx hr := by
    have hstarted : c.history.Allows (.started e n x.providers c.world.providers) :=
      ⟨rfl, x, hx, hr, rfl⟩
    exact ⟨c.push _ hstarted, le_push _, rfl, World.run_runEffect_starting (.ofDepth n) hx hr⟩
  body host k x hx hr := by
    have hbegun : c.history.Allows (.bodyBegun k x.providers c.world.providers) := ⟨rfl, x, hx, hr, rfl⟩
    refine ⟨c.push _ hbegun, le_push _, rfl, ?_⟩
    simp [runBody, providing, World.run_bind, modifyHook, Event.world, World.under, hx, hr]
  indifferent host := ⟨.runEffect, .runBody, .setSignal, .flush, .commit⟩
  restored providers a v w h := World.providers_providing h

end Course

/-- At every point of every run of a program, contexts resolve in the scopes around the evaluation. -/
theorem contexts_resolved (n : Nat) (program : List Expr) :
    (∃ d : Course, d.Of (.ofDepth n) program) ∧
      ∀ d : Course, d.Of (.ofDepth n) program → ∀ c ≤ d, c.Resolves :=
  ⟨Course.exists_of n program, fun _ _ c _ => c.resolves⟩

/-- Where a snapshot is run inside a body, what it holds is found, though nothing was provided where the
effect was made and nothing is provided in its body. -/
theorem snapshot_inside_body :
    (Program.run [
      .create "c" (.context (.value (.string "default"))),
      .on "c" "provide" (.provide (.value (.string "elsewhere")) (.create "snap" .snapshot)),
      .create "e" (.effect .render
        (.log [.on "snap" "run_in" (.runIn (.on "c" "use_context" .useContext))]))]).map (·.log) =
      [[], [], ["elsewhere"]] := by
  decide +kernel

/-- An effect that is set off under another provider sees the one that was visible where it was made. -/
theorem contexts_resolved_elsewhere :
    let program : List Expr := [
      .create "s" (.signal (.value (.integer 0))),
      .create "c" (.context (.value (.string "default"))),
      .on "c" "provide" (.provide (.value (.string "creation")) (.create "e" (.effect .render
        (.sequence [.on "s" "get" .get, .log [.on "c" "use_context" .useContext]])))),
      .on "c" "provide" (.provide (.value (.string "trigger"))
        (.on "s" "set" (.set (.value (.integer 1)))))]
    ∃ d : Course, d.Of (.ofDepth 9) program ∧ d.world.log = ["creation"] ∧ d.world.providers = [] ∧
      d.made 4 = [⟨2, .string "creation"⟩] ∧ ∀ c ≤ d, c.Resolves := by
  intro program
  obtain ⟨⟨d, hd⟩, hall⟩ := contexts_resolved 9 program
  have hmade : (d.world.effects.get? 4).map (·.providers) = some [⟨2, .string "creation"⟩] := by
    rw [← hd.world]
    decide +kernel
  obtain ⟨x, hx, hproviders⟩ := Option.map_eq_some_iff.1 hmade
  refine ⟨d, hd, ?_, ?_, (d.isScoped.effects 4 x hx).symm.trans hproviders, hall d hd⟩
  · rw [← hd.world]
    decide +kernel
  · rw [← hd.world]
    decide +kernel

end FineGrain

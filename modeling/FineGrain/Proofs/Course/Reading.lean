import FineGrain.Proofs.Course.Follows
/-!
Reading, borrowing and evaluating untracked follow every course.
-/

namespace FineGrain

open Act

namespace Store

variable {α β : Type}

theorem map_get?_modify {s : Store α} {key k : Nat} {f : α → α} {g : α → β}
    (h : ∀ a, g (f a) = g a) : ((s.modify key f).get? k).map g = (s.get? k).map g := by
  rw [get?_modify]
  split <;> simp [Function.comp_def, h]

theorem map_get?_put {s : Store α} {key k : Nat} {a b : α} {g : α → β}
    (h : s.get? key = some a) (hg : g b = g a) :
    ((s.put key b).get? k).map g = (s.get? k).map g := by
  rw [get?_put]
  split <;> simp_all

end Store

namespace World.Aside

variable {w : World}

theorem onSignal (s : Nat) {f : Signal → Signal}
    (hf : ∀ x, ({ f x with clones := 0, readers := 0 } : Signal) =
      { x with clones := 0, readers := 0 }) :
    w.Aside { w with signals := w.signals.modify s f } :=
  { refl w with signals := fun _ => Store.map_get?_modify hf }

theorem onMemo (m : Nat) {f : Memo → Memo}
    (hf : ∀ x, ({ f x with owners := 0, readers := 0 } : Memo) =
      { x with owners := 0, readers := 0 }) :
    w.Aside { w with memos := w.memos.modify m f } :=
  { refl w with memos := fun _ => Store.map_get?_modify hf }

end World.Aside

namespace Course

variable {α : Type} {c d : Course} {s : Nat} {v : Value} {a : Act α}

theorem Runs.track : c.Runs (track s) := .step (.tracked s (c.world.value s)) rfl trivial rfl rfl

theorem Runs.log (line : String) : c.Runs (Act.log line) :=
  .aside { World.Aside.refl c.world with } rfl

theorem Runs.onSignal {f : Signal → Signal} (hf : ∀ x, ({ f x with clones := 0, readers := 0 } : Signal) =
    { x with clones := 0, readers := 0 }) : c.Runs (modifySignal s f) :=
  .aside (.onSignal s hf) rfl

theorem Runs.read : c.Runs (Act.read s) := by
  cases h : ((c.world.signals.get? s).getD default).writing with
  | false => exact .look (World.run_read c.world h)
  | true => exact .of_run_eq (b := conflict) (by simp [Act.read, World.run_bind, h]) .conflict

theorem Runs.borrowing {inside : Value → Act α} (h : ∀ v d, c ≤ d → d.Runs (inside v)) :
    c.Runs (borrowing s inside) := by
  refine Runs.read.bind fun v d hd _ => Runs.bind (.onSignal fun _ => rfl) ?_
  intro _ d' hd' _
  refine (h v d' (hd.trans hd')).bind fun a e _ _ => ?_
  exact Runs.bind (.onSignal fun _ => rfl) fun _ _ _ _ => .pure a

theorem Runs.untracked (h : ∀ d, c ≤ d → d.Runs a) : c.Runs (untracked a) := by
  let observers := c.world.graph.observers
  refine .bracket (.hidden observers) (.untracked observers) a
    (fun v => do onGraph (·.restoreObservers observers); return v) rfl trivial rfl rfl (h _ (le_push _))
    fun v d _ hd _ => ?_
  exact .close (.shown observers) (head_frames hd) trivial hd rfl rfl

theorem Runs.providing {providers : List Provider} (h : ∀ d, c ≤ d → d.Runs a) :
    c.Runs (providing providers a) := by
  let before := c.world.providers
  refine .bracket (.provided providers before) (.providing before) a
    (fun v => do modify fun w => { w with providers := before }; return v) rfl trivial rfl rfl
    (h _ (le_push _)) fun v d _ hd _ => ?_
  exact .close (.withdrawn before) (head_frames hd) trivial hd rfl rfl

theorem Runs.trackOne (x : Dependency) : c.Runs (trackOne x) := by
  cases x with
  | plain v => exact .pure _
  | memo m => exact .pure _
  | state s => exact Runs.track.bind fun _ d _ _ => .borrowing fun _ e _ => .pure _
  | probe p =>
    refine .get ?_
    cases c.world.probes.get? p with
    | none => exact .pure _
    | some x => exact .log _

theorem Runs.trackSteps (n : Nat) : ∀ {c : Course} (seen : List DependencyKey)
    (ds : List Dependency), c.Runs (trackSteps n seen ds) := by
  induction n with
  | zero => exact fun _ _ => .pure _
  | succ n ih =>
    intro c seen ds
    cases ds with
    | nil => exact .pure _
    | cons x rest =>
      refine .get ?_
      cases c.world.keyOf x with
      | none => exact ih seen rest
      | some key =>
        dsimp only
        split
        · exact ih seen rest
        · exact (Runs.trackOne x).bind fun _ _ _ _ => ih _ _

theorem Runs.trackAll (ds : List Dependency) : c.Runs (trackAll ds) := .get (.trackSteps _ _ _)

end Course

end FineGrain

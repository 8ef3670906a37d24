import FineGrain.World.Memo
import FineGrain.World.Task
/-!
What acts answer and what they leave behind: an equation for each step that the library takes.
-/

namespace FineGrain

open Act

namespace Store

variable {α : Type}

theorem modify_modify (s : Store α) (key : Nat) (f g : α → α) :
    (s.modify key f).modify key g = s.modify key (g ∘ f) := by
  simp only [modify, List.map_map, mk.injEq]
  apply List.map_congr_left
  rintro ⟨k, a⟩ _
  by_cases h : k = key <;> simp [h]

theorem modify_id (s : Store α) (key : Nat) : s.modify key id = s := by
  have h : (fun e : Nat × α => if e.1 == key then (e.1, id e.2) else (e.1, e.2)) = id := by
    funext ⟨k, a⟩
    by_cases h : k = key <;> simp [h]
  exact congrArg Store.mk ((congrArg (s.entries.map ·) h).trans s.entries.map_id)

end Store

def Task.isFlush : Task → Bool
  | .flush => true
  | _ => false

def Task.isPhases : Task → Bool
  | .phases => true
  | _ => false

namespace World

/-- The answer of an act, or why it stopped short, and the world that it leaves. -/
def run (w : World) (a : Act α) : Except Abort α × World := (ExceptT.run a).run w

variable {α β : Type} (w : World)

@[simp] theorem run_pure (a : α) : w.run (pure a) = (.ok a, w) := rfl

theorem run_bind (a : Act α) (f : α → Act β) :
    w.run (a >>= f) = match w.run a with
      | (.ok v, w') => w'.run (f v)
      | (.error e, w') => (.error e, w') := by
  simp only [run, ExceptT.run_bind, StateT.run_bind]
  cases h : StateT.run (ExceptT.run a) w with
  | mk r w' => cases r <;> rfl

theorem run_map (f : α → β) (a : Act α) :
    w.run (f <$> a) = match w.run a with
      | (.ok v, w') => (.ok (f v), w')
      | (.error e, w') => (.error e, w') := by
  rw [map_eq_pure_bind, run_bind]
  rcases w.run a with ⟨_ | v, w'⟩ <;> rfl

theorem run_bind_ok {w w' : World} {a : Act α} {v : α} (h : w.run a = (.ok v, w'))
    (f : α → Act β) : w.run (a >>= f) = w'.run (f v) := by
  rw [run_bind, h]

@[simp] theorem run_get : w.run (get : Act World) = (.ok w, w) := rfl

@[simp] theorem run_set (w' : World) : w.run (set w' : Act PUnit) = (.ok ⟨⟩, w') := rfl

@[simp] theorem run_modify (f : World → World) :
    w.run (modify f : Act PUnit) = (.ok ⟨⟩, f w) := rfl

@[simp] theorem run_conflict : w.run (conflict : Act α) = (.error .conflict, w) := rfl

@[simp] theorem run_exhausted : w.run (exhausted : Act α) = (.error .exhausted, w) := rfl

@[simp] theorem run_fresh : w.run fresh = (.ok w.next, { w with next := w.next + 1 }) := rfl

@[simp] theorem run_onGraph (f : Graph → Graph) :
    w.run (onGraph f) = (.ok ⟨⟩, { w with graph := f w.graph }) := rfl

@[simp] theorem run_queueTask (task : Task) :
    w.run (queueTask task) = (.ok ⟨⟩, { w with tasks := w.tasks ++ [task] }) := rfl

@[simp] theorem run_track (s : Nat) :
    w.run (track s) = (.ok ⟨⟩, { w with graph := w.graph.track s }) := rfl

@[simp] theorem run_signal (s : Nat) :
    w.run (signal s) = (.ok ((w.signals.get? s).getD default), w) := rfl

@[simp] theorem run_modifySignal (s : Nat) (f : Signal → Signal) :
    w.run (modifySignal s f) = (.ok ⟨⟩, { w with signals := w.signals.modify s f }) := rfl

theorem run_read {s : Nat} (h : ((w.signals.get? s).getD default).writing = false) :
    w.run (Act.read s) = (.ok ((w.signals.get? s).getD default).value, w) := by
  simp [Act.read, run_bind, h]

theorem run_providing {w w' : World} {providers : List Provider} {a : Act α} {v : α}
    (h : { w with providers := providers }.run a = (.ok v, w')) :
    w.run (providing providers a) = (.ok v, { w' with providers := w.providers }) := by
  simp [providing, run_bind, run_map, h]

end World

end FineGrain

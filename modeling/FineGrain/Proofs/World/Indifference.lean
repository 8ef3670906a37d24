import FineGrain.Proofs.World.Run
/-!
Acts to which it makes no difference which providers are visible where they are called, and which leave
them as they were: runs of effects and of bodies of hooks, and whatever only sets them off.
-/

namespace FineGrain

open Act

namespace World

variable {α β : Type} {w : World} {host : Host} {a : Act α}

/-- The world with other providers visible. -/
def under (w : World) (providers : List Provider) : World := { w with providers := providers }

/-- An act that ends leaves the providers as they were, and would have answered and done the same under
any others; one that stops short would have stopped short in the same way. -/
structure Indifferent (w : World) (a : Act α) : Prop where
  ok : ∀ v w', w.run a = (.ok v, w') → w'.providers = w.providers ∧
    ∀ outer, (w.under outer).run a = (.ok v, w'.under outer)
  error : ∀ e w', w.run a = (.error e, w') →
    ∀ outer, ∃ left, (w.under outer).run a = (.error e, w'.under left)

theorem run_providing_under (w : World) (providers : List Provider) (a : Act α) :
    w.run (providing providers a) = (w.under providers).run (do
      let v ← a
      modify (·.under w.providers)
      return v) := rfl

theorem run_providing_error {providers : List Provider} {e : Abort} {w' : World}
    (h : (w.under providers).run a = (.error e, w')) : w.run (providing providers a) = (.error e, w') := by
  rw [run_providing_under, run_bind, h]

theorem providers_providing {providers : List Provider} {v : α} {w' : World}
    (h : w.run (providing providers a) = (.ok v, w')) : w'.providers = w.providers := by
  rcases hr : (w.under providers).run a with ⟨_ | u, w₁⟩
  · rw [run_providing_error hr] at h
    cases h
  · rw [run_providing hr] at h
    cases h
    rfl

namespace Indifferent

theorem pure (v : α) : w.Indifferent (pure v) where
  ok u w' h := by
    cases h
    exact ⟨rfl, fun _ => rfl⟩
  error e w' h := by cases h

theorem conflict : w.Indifferent (conflict : Act α) where
  ok v w' h := by cases h
  error e w' h outer := by
    cases h
    exact ⟨outer, rfl⟩

theorem bind {f : α → Act β} (ha : w.Indifferent a)
    (hf : ∀ v w', w.run a = (.ok v, w') → w'.Indifferent (f v)) : w.Indifferent (a >>= f) where
  ok u w' h := by
    rw [run_bind] at h
    rcases hr : w.run a with ⟨_ | v, w₁⟩ <;> rw [hr] at h
    · cases h
    · obtain ⟨hprov, hrun⟩ := ha.ok v w₁ hr
      obtain ⟨hprov', hrun'⟩ := (hf v w₁ hr).ok u w' h
      exact ⟨hprov'.trans hprov, fun outer => by rw [run_bind_ok (hrun outer), hrun']⟩
  error e w' h outer := by
    rw [run_bind] at h
    rcases hr : w.run a with ⟨_ | v, w₁⟩ <;> rw [hr] at h
    · cases h
      obtain ⟨left, hrun⟩ := ha.error e w' hr outer
      exact ⟨left, by rw [run_bind, hrun]⟩
    · obtain ⟨left, hrun⟩ := (hf v w₁ hr).error e w' h outer
      exact ⟨left, by rw [run_bind_ok ((ha.ok v w₁ hr).2 outer), hrun]⟩

theorem map {f : α → β} (ha : w.Indifferent a) : w.Indifferent (f <$> a) := by
  rw [map_eq_pure_bind]
  exact ha.bind fun _ _ _ => .pure _

theorem get {f : World → Act α} (hf : ∀ outer, f (w.under outer) = f w) (h : w.Indifferent (f w)) :
    w.Indifferent (get >>= f) where
  ok v w' hr := by
    obtain ⟨hprov, hrun⟩ := h.ok v w' hr
    exact ⟨hprov, fun outer => by rw [run_bind_ok (run_get _), hf, hrun]⟩
  error e w' hr outer := by
    obtain ⟨left, hrun⟩ := h.error e w' hr outer
    exact ⟨left, by rw [run_bind_ok (run_get _), hf, hrun]⟩

theorem modify {f : World → World} (hf : ∀ w outer, f (w.under outer) = (f w).under outer) :
    w.Indifferent (modify f : Act PUnit) where
  ok v w' h := by
    cases h
    have hprov : (f w).providers = w.providers := by
      rw [show f w = (f w).under w.providers from hf w w.providers]
      rfl
    exact ⟨hprov, fun outer => by rw [run_modify, hf]⟩
  error e w' h := by cases h

theorem providing (providers : List Provider) (inside : Act α) :
    w.Indifferent (providing providers inside) where
  ok v w' h := by
    rcases hr : (w.under providers).run inside with ⟨_ | u, w₁⟩
    · rw [run_providing_error hr] at h
      cases h
    · rw [run_providing hr] at h
      cases h
      refine ⟨rfl, fun outer => ?_⟩
      have hinside : ((w.under outer).under providers).run inside = (.ok v, w₁) := hr
      rw [run_providing hinside]
      rfl
  error e w' h outer := by
    rcases hr : (w.under providers).run inside with ⟨_ | u, w₁⟩
    · rw [run_providing_error hr] at h
      cases h
      exact ⟨w'.providers, run_providing_error (show ((w.under outer).under providers).run inside = _ from hr)⟩
    · rw [run_providing hr] at h
      cases h

theorem modifyEffect (e : NodeId) (f : Effect → Effect) : w.Indifferent (modifyEffect e f) :=
  .modify fun _ _ => rfl

theorem modifyHook (h : Nat) (f : HookSlot → HookSlot) : w.Indifferent (modifyHook h f) :=
  .modify fun _ _ => rfl

theorem onGraph (f : Graph → Graph) : w.Indifferent (onGraph f) := .modify fun _ _ => rfl

theorem queueTask (task : Task) : w.Indifferent (queueTask task) := .modify fun _ _ => rfl

theorem runEffect (e : NodeId) : w.Indifferent (runEffect host e) := by
  refine .get (fun _ => rfl) ?_
  split
  · exact .pure _
  · split
    · exact .pure _
    · refine (modifyEffect _ _).bind fun _ _ _ => (onGraph _).bind fun _ _ _ => ?_
      refine (providing _ _).bind fun _ _ _ => (onGraph _).bind fun _ _ _ => ?_
      exact modifyEffect _ _

theorem runBody (h : Nat) : w.Indifferent (runBody host h) := by
  refine .get (fun _ => rfl) ?_
  split
  · exact .pure _
  · split
    · exact .pure _
    · refine (modifyHook _ _).bind fun _ _ _ => (providing _ _).bind fun _ _ _ => ?_
      exact modifyHook _ _

theorem runEffects (l : List NodeId) : w.Indifferent (runEffects host l) := by
  induction l generalizing w with
  | nil => exact .pure _
  | cons e rest ih => exact (runEffect e).bind fun _ _ _ => ih

theorem schedule (e : NodeId) : w.Indifferent (schedule e) := by
  refine .get (fun _ => rfl) ((Indifferent.modify fun _ _ => rfl).bind fun _ _ _ => ?_)
  split
  · exact queueTask _
  · exact .pure _

theorem sortOut (l : List NodeId) : w.Indifferent (sortOut l) := by
  induction l generalizing w with
  | nil => exact .pure _
  | cons e rest ih =>
    refine .get (fun _ => rfl) ?_
    split
    · exact ih
    · split
      · exact ih.map
      · exact (schedule _).bind fun _ _ _ => ih

theorem notify (s : NodeId) : w.Indifferent (notify host s) :=
  .get (fun _ => rfl) ((sortOut _).bind fun _ _ _ => runEffects _)

theorem flush : w.Indifferent (flush host) :=
  .get (fun _ => rfl) ((Indifferent.modify fun _ _ => rfl).bind fun _ _ _ => runEffects _)

theorem setSignal (s : Nat) (v : Value) : w.Indifferent (setSignal host s v) := by
  refine Indifferent.bind ?_ fun _ _ _ =>
    (Indifferent.modify fun _ _ => rfl).bind fun _ _ _ => notify s
  refine .get (fun _ => rfl) ?_
  split
  · exact .conflict
  · exact .pure _

theorem dropOne_under (w : World) (outer : List Provider) (o : Owned) :
    (w.under outer).dropOne o = ((w.dropOne o).1, (w.dropOne o).2.under outer) := by
  cases o with
  | signal s =>
    simp only [dropOne, dropSignal, under]
    split <;> try rfl
    split <;> rfl
  | memo m =>
    simp only [dropOne, dropMemo, under]
    split <;> try rfl
    split <;> rfl
  | probe p =>
    simp only [dropOne, dropProbe, under]
    split <;> try rfl
    split <;> rfl
  | effect e =>
    simp only [dropOne, dropEffect, under]
    split <;> rfl

theorem giveUpSteps_under (n : Nat) (outer : List Provider) (things : List Owned) (w : World) :
    giveUpSteps n things (w.under outer) = (giveUpSteps n things w).under outer := by
  induction n generalizing things w with
  | zero => rfl
  | succ n ih =>
    cases things with
    | nil => rfl
    | cons o rest =>
      rw [giveUpSteps, dropOne_under]
      exact ih _ _

theorem giveUp (things : List Owned) : w.Indifferent (Act.giveUp things) :=
  .modify fun w outer => giveUpSteps_under _ outer things w

theorem commit (s : Nat) : w.Indifferent (commit host s) := by
  refine .get (fun _ => rfl) ((Indifferent.modify fun _ _ => rfl).bind fun _ _ _ => ?_)
  split
  · exact (setSignal s _).bind fun _ _ _ => Indifferent.giveUp _
  · exact Indifferent.giveUp _

end Indifferent

end World

end FineGrain

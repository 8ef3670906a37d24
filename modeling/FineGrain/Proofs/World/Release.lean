import FineGrain.Proofs.World.Looking
import Mathlib.Algebra.GroupWithZero.Nat
/-!
Giving things up goes to the end. Whatever is given up gives up in turn what it owns, and since every memo,
probe and effect goes away at most once, there are always enough steps left for what is still to be given
up. So the effect of a memo that goes away goes away with it.
-/

namespace FineGrain

open Act

namespace Store

variable {α : Type} {key : Nat} {a b : α}

theorem sum_putEntry (f : Nat × α → Nat) : ∀ {l : List (Nat × α)}, lookup key l = some b →
    f (key, a) = f (key, b) → ((putEntry key a l).map f).sum = (l.map f).sum
  | [], h, _ => by cases h
  | (k, c) :: rest, h, hf => by
    by_cases hk : k = key
    · subst hk
      obtain rfl : c = b := by simpa [lookup] using h
      simp [putEntry, hf]
    · simp only [lookup, hk, if_false] at h
      simp [putEntry, hk, sum_putEntry f h hf]

theorem sum_filter_le (f : Nat × α → Nat) (p : Nat × α → Bool) (l : List (Nat × α)) :
    ((l.filter p).map f).sum ≤ (l.map f).sum := by
  induction l with
  | nil => exact Nat.le_refl _
  | cons e rest ih => by_cases he : p e = true <;> simp [he] <;> omega

theorem sum_erase (f : Nat × α → Nat) {l : List (Nat × α)} (h : (key, a) ∈ l) :
    ((l.filter (·.1 != key)).map f).sum + f (key, a) ≤ (l.map f).sum := by
  induction l with
  | nil => cases h
  | cons e rest ih =>
    rcases List.mem_cons.1 h with rfl | h
    · have := sum_filter_le f (·.1 != key) rest
      simp
      omega
    · have := ih h
      by_cases he : e.1 = key <;> simp [he] <;> omega

end Store

/-- The hook whose dependencies a computation tracks. -/
def Computation.hook? : Computation → Option Nat
  | .hook h => some h
  | _ => none

namespace World

/-- Things are given up in order, and in front of the rest whatever each gives up in turn. -/
inductive Released : World → List Owned → World → Prop
  | done {w} : Released w [] w
  | step {w o rest w'} : Released (World.dropOne w o).2 ((World.dropOne w o).1 ++ rest) w' →
      Released w (o :: rest) w'

variable {w w' : World} {things rest : List Owned} {o : Owned} {e m : Nat}

/-- No two effects track the dependencies of the same hook. -/
def Separate (w : World) : Prop :=
  ∀ a ∈ w.effects.entries, ∀ b ∈ w.effects.entries, ∀ h,
    a.2.computation.hook? = some h → b.2.computation.hook? = some h → a.1 = b.1

/-- What memos give up when they go away: the entries they were declared with, and an effect. -/
def memosOwe (l : List (Nat × Memo)) : Nat := (l.map fun a => a.2.dependencies.length + 1).sum

def probesOwe (l : List (Nat × Probe)) : Nat :=
  (l.map fun a => (a.2.dependencies.getD []).length).sum

/-- An effect that tracks the dependencies of a hook is there. -/
def tracks (effects : List (Nat × Effect)) (h : Nat) : Bool :=
  effects.any fun a => a.2.computation.hook? == some h

/-- What the effects of hooks give up: the entries that the hooks were declared with. -/
def hooksOwe (effects : List (Nat × Effect)) (l : List (Nat × HookSlot)) : Nat :=
  (l.map fun a => if tracks effects a.1 then (a.2.dependencies.getD []).length else 0).sum

/-- What is still to be given up in turn. -/
def owed (w : World) : Nat :=
  memosOwe w.memos.entries + probesOwe w.probes.entries +
    hooksOwe w.effects.entries w.hooks.entries

theorem length_allOwned (ds : List Dependency) : (Dependency.allOwned ds).length ≤ ds.length := by
  induction ds with
  | nil => exact Nat.le_refl _
  | cons d rest ih => cases d <;> simp [Dependency.allOwned, Dependency.owned] at ih ⊢ <;> omega

theorem owed_le (w : World) : w.owed ≤ w.ownedCount := by
  have hmemos (l : List (Nat × Memo)) :
      memosOwe l = l.length + (l.flatMap fun a => a.2.dependencies).length := by
    induction l with
    | nil => rfl
    | cons a rest ih =>
      simp only [memosOwe, List.map_cons, List.sum_cons, List.length_cons, List.flatMap_cons,
        List.length_append] at ih ⊢
      omega
  have hhooks (l : List (Nat × HookSlot)) :
      hooksOwe w.effects.entries l ≤ (l.flatMap fun a => a.2.dependencies.getD []).length := by
    induction l with
    | nil => exact Nat.le_refl _
    | cons a rest ih =>
      simp only [hooksOwe, List.map_cons, List.sum_cons, List.flatMap_cons, List.length_append] at ih ⊢
      split <;> omega
  have := hhooks w.hooks.entries
  rw [owed, ownedCount, hmemos, probesOwe, List.length_flatMap (l := w.probes.entries)]
  omega

theorem tracks_mono {effects effects' : List (Nat × Effect)} (hsub : effects' ⊆ effects) {h : Nat}
    (ht : tracks effects' h = true) : tracks effects h = true := by
  obtain ⟨a, ha, hook⟩ := List.any_eq_true.1 ht
  exact List.any_eq_true.2 ⟨a, hsub ha, hook⟩

theorem hooksOwe_mono {effects effects' : List (Nat × Effect)} (hsub : effects' ⊆ effects)
    (hooks : List (Nat × HookSlot)) : hooksOwe effects' hooks ≤ hooksOwe effects hooks := by
  induction hooks with
  | nil => exact Nat.le_refl _
  | cons a rest ih =>
    simp only [hooksOwe, List.map_cons, List.sum_cons] at ih ⊢
    by_cases ht : tracks effects' a.1 = true
    · simp only [ht, tracks_mono hsub ht, if_true]
      omega
    · simp only [ht, Bool.false_eq_true, if_false]
      omega

theorem hooksOwe_erase {effects : List (Nat × Effect)} {x : Effect} {h : Nat} (he : (e, x) ∈ effects)
    (hx : x.computation.hook? = some h)
    (hone : ∀ a ∈ effects, a.2.computation.hook? = some h → a.1 = e)
    (hooks : List (Nat × HookSlot)) : hooksOwe (effects.filter (·.1 != e)) hooks +
      (((Store.lookup h hooks).bind (·.dependencies)).getD []).length ≤ hooksOwe effects hooks := by
  have hsub : effects.filter (·.1 != e) ⊆ effects := List.filter_sublist.subset
  have hgone : tracks (effects.filter (·.1 != e)) h = false := by
    refine Bool.eq_false_iff.2 fun ht => ?_
    obtain ⟨a, ha, hook⟩ := List.any_eq_true.1 ht
    obtain ⟨ha, hne⟩ := List.mem_filter.1 ha
    exact absurd (hone a ha (eq_of_beq hook)) (by simpa using hne)
  have hthere : tracks effects h = true := List.any_eq_true.2 ⟨_, he, by simp [hx]⟩
  induction hooks with
  | nil => exact Nat.le_refl _
  | cons a rest ih =>
    obtain ⟨k, y⟩ := a
    by_cases hk : k = h
    · subst hk
      have := hooksOwe_mono hsub rest
      simp only [hooksOwe, List.map_cons, List.sum_cons, Store.lookup, if_true, hgone, hthere,
        Bool.false_eq_true, if_false, Option.bind_some] at this ⊢
      omega
    · simp only [hooksOwe, List.map_cons, List.sum_cons, Store.lookup, hk, if_false] at ih ⊢
      by_cases ht : tracks (effects.filter (·.1 != e)) k = true
      · simp only [ht, tracks_mono hsub ht, if_true]
        omega
      · simp only [ht, Bool.false_eq_true, if_false]
        omega

theorem dropSignal_rest (w : World) (s : Nat) :
    w.dropSignal s = { w with signals := (w.dropSignal s).signals, graph := (w.dropSignal s).graph } := by
  unfold dropSignal
  split
  · rfl
  · split <;> rfl

theorem dropMemo_rest (w : World) (m : Nat) :
    (w.dropMemo m).2 = { w with memos := (w.dropMemo m).2.memos } := by
  unfold dropMemo
  split
  · rfl
  · split <;> rfl

theorem dropProbe_rest (w : World) (p : Nat) :
    (w.dropProbe p).2 = { w with probes := (w.dropProbe p).2.probes } := by
  unfold dropProbe
  split
  · rfl
  · split <;> rfl

theorem memos_dropEffect (w : World) (e : NodeId) : (w.dropEffect e).2.memos = w.memos := by
  unfold dropEffect
  split <;> rfl

theorem effects_dropOne (o : Owned) : (w.dropOne o).2.effects = w.effects ∨
    ∃ e, o = .effect e ∧ (w.dropOne o).2.effects = w.effects.erase e := by
  cases o with
  | signal s => exact .inl (by rw [dropOne, dropSignal_rest])
  | memo m => exact .inl (by rw [dropOne, dropMemo_rest])
  | probe p => exact .inl (by rw [dropOne, dropProbe_rest])
  | effect e =>
    cases hx : w.effects.get? e with
    | none => exact .inl (by simp [dropOne, dropEffect, hx])
    | some x => exact .inr ⟨e, rfl, by simp [dropOne, dropEffect, hx]⟩

theorem entries_dropOne (o : Owned) : (w.dropOne o).2.effects.entries ⊆ w.effects.entries := by
  obtain heq | ⟨e, -, heq⟩ := effects_dropOne o <;> rw [heq]
  · exact List.Subset.refl _
  · exact List.filter_sublist.subset

theorem Separate.dropOne (h : w.Separate) (o : Owned) : (w.dropOne o).2.Separate :=
  fun _ ha _ hb => h _ (entries_dropOne o ha) _ (entries_dropOne o hb)

theorem owed_dropMemo (m : Nat) : (w.dropMemo m).1.length + (w.dropMemo m).2.owed ≤ w.owed := by
  unfold dropMemo
  split
  · simp
  · rename_i x hx
    split
    · have hsum : memosOwe _ + (x.dependencies.length + 1) ≤ memosOwe w.memos.entries :=
        Store.sum_erase (fun a => a.2.dependencies.length + 1) (Store.mem_of_get? hx)
      have hlength := length_allOwned x.dependencies
      simp only [owed, Store.erase, List.length_append, List.length_singleton]
      omega
    · have hsum : memosOwe _ = memosOwe w.memos.entries :=
        Store.sum_putEntry (a := { x with owners := x.owners - 1 })
          (fun a : Nat × Memo => a.2.dependencies.length + 1) hx rfl
      simp [owed, Store.put, hsum]

theorem owed_dropProbe (p : Nat) : (w.dropProbe p).1.length + (w.dropProbe p).2.owed ≤ w.owed := by
  unfold dropProbe
  split
  · simp
  · rename_i x hx
    split
    · have hsum : probesOwe _ + (x.dependencies.getD []).length ≤ probesOwe w.probes.entries :=
        Store.sum_erase (fun a => (a.2.dependencies.getD []).length) (Store.mem_of_get? hx)
      have hlength := length_allOwned (x.dependencies.getD [])
      simp only [owed, Store.erase]
      omega
    · have hsum : probesOwe _ = probesOwe w.probes.entries :=
        Store.sum_putEntry (a := { x with owners := x.owners - 1 })
          (fun a : Nat × Probe => (a.2.dependencies.getD []).length) hx rfl
      simp [owed, Store.put, hsum]

theorem owed_dropEffect (hw : w.Separate) (e : NodeId) :
    (w.dropEffect e).1.length + (w.dropEffect e).2.owed ≤ w.owed := by
  unfold dropEffect
  split
  · simp
  · rename_i x hx
    have hmem := Store.mem_of_get? hx
    cases hcomp : x.computation with
    | hook h =>
      have hhook : x.computation.hook? = some h := by rw [hcomp]; rfl
      -- Two effects of one hook would both owe its list; that is what the separation excludes.
      have hsum := hooksOwe_erase hmem hhook (fun a ha ha' => hw a ha _ hmem h ha' hhook)
        w.hooks.entries
      have hlength := length_allOwned (((w.hooks.get? h).bind (·.dependencies)).getD [])
      simp only [owed, Store.erase, computationOwned, Store.get?] at hlength ⊢
      omega
    | body _ | memo _ =>
      have hless : hooksOwe (w.effects.entries.filter (·.1 != e)) w.hooks.entries ≤ _ :=
        hooksOwe_mono List.filter_sublist.subset w.hooks.entries
      simp only [owed, Store.erase, computationOwned, List.length_nil]
      omega

theorem owed_dropOne (hw : w.Separate) (o : Owned) :
    (w.dropOne o).1.length + (w.dropOne o).2.owed ≤ w.owed := by
  cases o with
  | signal s =>
    rw [dropOne, dropSignal_rest]
    exact Nat.le_of_eq (Nat.zero_add _)
  | memo m => exact owed_dropMemo m
  | probe p => exact owed_dropProbe p
  | effect e => exact owed_dropEffect hw e

theorem released_giveUpSteps (n : Nat) : ∀ (w : World) (things : List Owned), w.Separate →
    things.length + w.owed ≤ n → w.Released things (giveUpSteps n things w) := by
  induction n with
  | zero =>
    intro w things _ hn
    obtain rfl : things = [] := List.length_eq_zero_iff.1 (by omega)
    exact .done
  | succ n ih =>
    intro w things hw hn
    cases things with
    | nil => exact .done
    | cons o rest =>
      have howed := owed_dropOne hw o
      rw [List.length_cons] at hn
      refine .step (ih _ _ (hw.dropOne o) ?_)
      rw [List.length_append]
      omega

theorem released_giveUp (h : w.Separate) (things : List Owned) :
    w.Released things (w.giveUp things) :=
  released_giveUpSteps _ w things h (by have := w.owed_le; omega)

theorem absent_dropOne (h : w.effects.get? e = none) (o : Owned) :
    (w.dropOne o).2.effects.get? e = none := by
  obtain heq | ⟨k, -, heq⟩ := effects_dropOne o <;> rw [heq]
  · exact h
  · rw [Store.get?_erase, h, ite_self]

theorem Released.absent (h : w.Released things w') (he : w.effects.get? e = none) :
    w'.effects.get? e = none := by
  induction h with
  | done => exact he
  | step _ ih => exact ih (absent_dropOne he _)

theorem Released.effect (h : w.Released things w') (he : .effect e ∈ things) :
    w'.effects.get? e = none := by
  induction h with
  | done => cases he
  | @step w o rest w' hrest ih =>
    rcases List.mem_cons.1 he with rfl | he
    · refine hrest.absent ?_
      simp only [dropOne, dropEffect]
      split
      · assumption
      · simp [Store.get?_erase]
    · exact ih (List.mem_append_right _ he)

theorem memo_dropOne {x : Memo} (hx : w.memos.get? m = some x) (o : Owned) :
    (∃ y, (w.dropOne o).2.memos.get? m = some y ∧ y.effect = x.effect) ∨
      .effect x.effect ∈ (w.dropOne o).1 := by
  cases o with
  | signal s => exact .inl ⟨x, by rw [dropOne, dropSignal_rest]; exact hx, rfl⟩
  | probe p => exact .inl ⟨x, by rw [dropOne, dropProbe_rest]; exact hx, rfl⟩
  | effect e => exact .inl ⟨x, by rw [dropOne, memos_dropEffect]; exact hx, rfl⟩
  | memo k =>
    cases hk : w.memos.get? k with
    | none => exact .inl ⟨x, by simp [dropOne, dropMemo, hk, hx], rfl⟩
    | some z =>
      by_cases hkm : m = k
      · subst hkm
        obtain rfl := Option.some.inj (hx.symm.trans hk)
        by_cases hlast : x.owners ≤ 1
        · exact .inr (by simp [dropOne, dropMemo, hk, hlast])
        · exact .inl ⟨{ x with owners := x.owners - 1 },
            by simp [dropOne, dropMemo, hk, hlast, Store.get?_put], rfl⟩
      · refine .inl ⟨x, ?_, rfl⟩
        by_cases hlast : z.owners ≤ 1 <;>
          simp [dropOne, dropMemo, hk, hlast, Store.get?_put, Store.get?_erase, hkm, hx]

theorem Released.memo {x : Memo} (h : w.Released things w') (hx : w.memos.get? m = some x)
    (hgone : w'.memos.get? m = none) : w'.effects.get? x.effect = none := by
  induction h generalizing x with
  | done => cases hx.symm.trans hgone
  | @step w o rest w' hrest ih =>
    rcases memo_dropOne hx o with ⟨y, hy, heffect⟩ | hmem
    · rw [← heffect]
      exact ih hy hgone
    · exact hrest.effect (List.mem_append_left _ hmem)

end World

end FineGrain

import FineGrain.Proofs.Rewrite.Plan
/-!
What the pieces of a plan hold, of names that are read, say, or of bindings that are added. Text that
is copied or made up holds nothing, so a frame around a plan holds what the plan does.
-/

namespace FineGrain

open Grammar Rewrite

/-- What the pieces of a plan hold, one after another. -/
def gathered (holds : Piece → List α) (plan : List Piece) : List α := plan.flatMap holds

def gatheredAll (holds : Piece → List α) (sites : List Site) : List α :=
  sites.flatMap fun site => gathered holds site.plan

/-- Nothing is held by text that is copied or made up. -/
class Sparing (holds : Piece → List α) : Prop where
  source : ∀ span, holds (.source span) = []
  made : ∀ text, holds (.made text) = []

variable {holds : Piece → List α} {s : Setting} {p q : List Piece} {piece : Piece}

@[simp] theorem gathered_nil : gathered holds [] = [] := rfl

@[simp] theorem gathered_cons : gathered holds (piece :: p) = holds piece ++ gathered holds p := by
  simp [gathered]

@[simp] theorem gathered_append : gathered holds (p ++ q) = gathered holds p ++ gathered holds q := by
  simp [gathered]

@[simp] theorem gatheredAll_nil : gatheredAll holds [] = [] := rfl

@[simp] theorem gatheredAll_cons {site : Site} {rest : List Site} :
    gatheredAll holds (site :: rest) = gathered holds site.plan ++ gatheredAll holds rest := by
  simp [gatheredAll]

@[simp] theorem gatheredAll_append {xs ys : List Site} :
    gatheredAll holds (xs ++ ys) = gatheredAll holds xs ++ gatheredAll holds ys := by
  simp [gatheredAll]

theorem gathered_intercalate {sep : List Piece} (hsep : gathered holds sep = [])
    (ps : List (List Piece)) :
    gathered holds (sep.intercalate ps) = ps.flatMap (gathered holds) := by
  induction ps with
  | nil => rfl
  | cons p ps ih =>
    cases ps with
    | nil => simp [List.intercalate]
    | cons p' ps =>
      simp only [List.intercalate, List.intersperse, List.flatten_cons, gathered_append, hsep,
        List.flatMap_cons, List.nil_append] at ih ⊢
      rw [ih]

theorem gathered_children {rest : List Node} :
    gathered holds ((if rest.length ≤ 1 then none else some (childrenPlan s rest)).getD []) =
      gathered holds (childrenPlan s rest) := by
  match rest with
  | [] => rfl
  | [_] => simp [childrenPlan, childPlans]
  | _ :: _ :: _ => rfl

section Frames

variable [Sparing holds]

@[simp] theorem gathered_fill {stop a : Nat} {xs : List Site} :
    gathered holds (fill stop a xs) = gatheredAll holds xs := by
  induction xs generalizing a with
  | nil => simp [fill, Sparing.source]
  | cons site rest ih => simp [fill, ih, Sparing.source]

@[simp] theorem gathered_over {span : Span} {xs : List Site} :
    gathered holds (spanPlan span xs) = gatheredAll holds xs := gathered_fill

@[simp] theorem gathered_bracedPlan : gathered holds (bracedPlan p) = gathered holds p := by
  simp [bracedPlan, Sparing.made]

@[simp] theorem gathered_deferredPlan : gathered holds (deferredPlan p) = gathered holds p := by
  simp [deferredPlan, Sparing.made]

@[simp] theorem gathered_spreadPlan : gathered holds (spreadPlan p) = gathered holds p := by
  simp [spreadPlan, Sparing.made]

@[simp] theorem gathered_assignedPlan {name : String} :
    gathered holds (assignedPlan name p) = gathered holds p := by
  simp [assignedPlan, Sparing.made]

@[simp] theorem gathered_taggedPlan {front attributes : List Piece} {tag : String}
    {children : Option (List Piece)} :
    gathered holds (taggedPlan front tag attributes children) =
      gathered holds front ++ gathered holds attributes ++ gathered holds (children.getD []) := by
  cases children <;> simp [taggedPlan, Sparing.made]

@[simp] theorem gathered_adaptedPlan {adapter temp : String}
    {tag attributes children : List Piece} :
    gathered holds (adaptedPlan adapter temp tag attributes children) =
      holds (.binds (.tag temp) adapter) ++ gathered holds tag ++ gathered holds attributes ++
        gathered holds children := by
  simp [adaptedPlan, Sparing.made]

@[simp] theorem gathered_objectPlan (ps : List (List Piece)) :
    gathered holds (objectPlan ps) = ps.flatMap (gathered holds) := by
  cases ps with
  | nil => simp [objectPlan, Sparing.made]
  | cons p ps => simp [objectPlan, gathered_intercalate, Sparing.made]

@[simp] theorem gathered_declarationPlan (copies : List Snapshot) :
    gathered holds (declarationPlan s copies) =
      copies.flatMap fun c => holds (.binds (.copy c.copy c.source) s.options.peekName) := by
  simp [declarationPlan, gathered_intercalate, List.flatMap_map, Sparing.made]

@[simp] theorem gatheredAll_copiedSites {copies : List Snapshot} {concise : Bool}
    {directives : List Span} {body : Span} {xs : List Site} :
    gatheredAll holds (copiedSites s copies concise directives body xs) =
      gathered holds (declarationPlan s copies) ++ gatheredAll holds xs := by
  unfold copiedSites
  split
  · rename_i hnone
    simp [List.isEmpty_iff.1 hnone]
  · split <;> simp [Sparing.made]

theorem gathered_quotedPlan {parts : List Node} {plan : List Piece}
    (h : quotedPlan? s parts = some plan) : gathered holds plan = [] := by
  unfold quotedPlan? at h
  split at h
  · obtain rfl := Option.some.inj h
    split <;> simp [Sparing.source]
  · cases h

end Frames

end FineGrain

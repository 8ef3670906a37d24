import FineGrain.Lexical.Free
import FineGrain.Proofs.Grammar.Imports
/-!
Names and the scopes that declare them. What a tree says about names is balanced: scopes close as they
have opened, and hoisting ends with the declarator that began it. So a name that the statements of a
unit import is declared in the outermost scope, and every use of it finds a scope that declares it.
-/

namespace FineGrain.Lexical

open Grammar

namespace Resolution

variable {r : Resolution} {l k : List Event} {u : Use} {number : Nat}

/-- The outermost scope stays open, and it is around every use. -/
structure Rooted (r : Resolution) : Prop where
  stack : ∃ inner isFunction, r.stack = inner ++ [⟨0, isFunction⟩]
  references : ∀ u ∈ r.references, 0 ∈ u.scopes

theorem Rooted.step (h : r.Rooted) (ev : Event) : (r.step ev).Rooted := by
  obtain ⟨⟨inner, isFunction, hstack⟩, hreferences⟩ := h
  cases ev with
  | enter opened =>
    refine ⟨⟨⟨r.count, opened⟩ :: inner, isFunction, ?_⟩, hreferences⟩
    rw [Resolution.step, hstack, List.cons_append]
  | leave =>
    rw [Resolution.step]
    split
    · rename_i scope outer rest hrest
      cases inner with
      | nil => simp [hrest] at hstack
      | cons _ inner =>
        refine ⟨⟨inner, isFunction, ?_⟩, hreferences⟩
        exact (List.cons.inj (hrest.symm.trans hstack)).2
    · exact ⟨⟨inner, isFunction, hstack⟩, hreferences⟩
  | reference name start =>
    refine ⟨⟨inner, isFunction, hstack⟩, fun u hu => ?_⟩
    rcases List.mem_append.1 hu with hu | hu
    · exact hreferences u hu
    · obtain rfl := List.mem_singleton.1 hu
      simp [path, hstack]
  | _ => exact ⟨⟨inner, isFunction, hstack⟩, hreferences⟩

theorem foldl_enclosed (isFunction : Bool) (inside : List Event) :
    (enclosed isFunction inside).foldl step r =
      (inside.foldl step (r.step (.enter isFunction))).step .leave := by
  rw [enclosed, List.cons_append, List.foldl_cons, List.foldl_append, List.foldl_cons,
    List.foldl_nil]

/-- Scopes close as they have opened, and no hoisting goes on at the end. -/
structure Balanced (l : List Event) : Prop where
  stack : ∀ r : Resolution, r.stack ≠ [] → (l.foldl step r).stack = r.stack
  hoisting : ∀ r : Resolution, r.hoisting = false → (l.foldl step r).hoisting = false

namespace Balanced

theorem nil : Balanced [] := ⟨fun _ _ => rfl, fun _ h => h⟩

theorem append (hl : Balanced l) (hk : Balanced k) : Balanced (l ++ k) where
  stack r hr := by
    rw [List.foldl_append, hk.stack _ (by rwa [hl.stack r hr]), hl.stack r hr]
  hoisting r hr := by
    rw [List.foldl_append]
    exact hk.hoisting _ (hl.hoisting r hr)

theorem declare (name : String) : Balanced [.declare name] := ⟨fun _ _ => rfl, fun _ h => h⟩

theorem reference (name : String) (start : Nat) : Balanced [.reference name start] :=
  ⟨fun _ _ => rfl, fun _ h => h⟩

theorem assign (name : String) : Balanced [.assign name] := ⟨fun _ _ => rfl, fun _ h => h⟩

theorem enclosed (isFunction : Bool) (h : Balanced l) : Balanced (enclosed isFunction l) where
  stack r hr := by
    have hinside := h.stack (r.step (.enter isFunction)) (List.cons_ne_nil _ _)
    rw [foldl_enclosed]
    generalize l.foldl step (r.step (.enter isFunction)) = inner at hinside ⊢
    obtain ⟨scope, outer, hstack⟩ := List.exists_cons_of_ne_nil hr
    simp [step, hinside, hstack]
  hoisting r hr := by
    have hinside := h.hoisting (r.step (.enter isFunction)) hr
    rw [foldl_enclosed]
    generalize l.foldl step (r.step (.enter isFunction)) = inner at hinside ⊢
    rw [step]
    split <;> exact hinside

theorem declarator (on : Bool) (hl : Balanced l) (hk : Balanced k) :
    Balanced (.hoisting on :: (l ++ .hoisting false :: k)) where
  stack r hr := by
    have hpattern : (l.foldl step (r.step (.hoisting on))).stack = r.stack :=
      hl.stack (r.step (.hoisting on)) hr
    rw [List.foldl_cons, List.foldl_append, List.foldl_cons]
    generalize l.foldl step (r.step (.hoisting on)) = behind at hpattern ⊢
    exact (hk.stack (behind.step (.hoisting false)) (hpattern ▸ hr)).trans hpattern
  hoisting r _ := by
    rw [List.foldl_cons, List.foldl_append, List.foldl_cons]
    exact hk.hoisting _ rfl

end Balanced

end Resolution

open Resolution

theorem balanced_declareOuter (role : Role) (parts : List Node) :
    Balanced (declareOuter role parts) := by
  unfold declareOuter
  split
  · exact .declare _
  · exact .nil

mutual

theorem balanced_events : ∀ n, Balanced (events n)
  | .mk label span parts => by
    have hparts := balanced_eventsAll parts
    cases label with
    | reference name => exact .reference name span.start
    | binding name => exact .declare name
    | target name => exact .assign name
    | targetShorthand name => exact (Balanced.assign name).append hparts
    | declarator kind => exact balanced_declarator (kind == .var) parts
    | function role => exact (balanced_declareOuter role parts).append (hparts.enclosed true)
    | arrow concise => exact hparts.enclosed true
    | classScope | staticBlock | block | loop | cases | «catch» | typeScope =>
      exact hparts.enclosed false
    | _ => exact hparts

theorem balanced_eventsAll : ∀ l, Balanced (eventsAll l)
  | [] => .nil
  | n :: rest => (balanced_events n).append (balanced_eventsAll rest)

theorem balanced_declarator (on : Bool) : ∀ parts, Balanced (.hoisting on :: declaratorEvents parts)
  | [] => .declarator on .nil .nil
  | pattern :: init => .declarator on (balanced_events pattern) (balanced_eventsAll init)

end

/-- Somewhere in a tree a name is read at an offset. -/
inductive Reads (name : String) (start : Nat) : Node → Prop
  | here {span : Span} {parts : List Node} (at_start : span.start = start) :
      Reads name start (.mk (.reference name) span parts)
  | inside {label : Label} {span : Span} {parts : List Node} {n : Node} (mem : n ∈ parts) :
      Reads name start n → (∀ other, label ≠ .reference other ∧ label ≠ .binding other ∧
        label ≠ .target other) → Reads name start (.mk label span parts)

end FineGrain.Lexical

import FineGrain.Lexical.Free
/-!
Free variables by the rule of lexical scoping. What a tree mentions freely is what its parts mention
less the names of the scope that it is: a block has the names declared in it, a function its own
name, its parameters and, for its body, what the body declares with every hoisted name. Trees that
one pass can resolve are told apart from those whose scopes it confuses.
-/

namespace FineGrain.Lexical

open Grammar

/-- A name that is read, at an offset, or assigned to. -/
inductive Mention where
  | read (name : String) (start : Nat)
  | write (name : String)
deriving DecidableEq, Repr

namespace Mention

def name : Mention → String
  | read name _ => name
  | write name => name

def isRead : Mention → Bool
  | read .. => true
  | write _ => false

def reading? : Mention → Option (String × Nat)
  | read name start => some (name, start)
  | write _ => none

end Mention

/-- The name that a function binds around itself. -/
def functionName (role : Role) (parts : List Node) : List String :=
  match role, parts with
  | .declaration, .mk (.binding name) _ _ :: _ => [name]
  | _, _ => []

mutual

/-- The names that a tree declares in the innermost scope around it. -/
def own : Node → List String
  | .mk label _ parts =>
      match label with
      | .binding name => [name]
      | .declarator .var => ownValue parts
      | .function role => functionName role parts
      | .reference _ | .target _ | .arrow _ | .class .expression | .classScope | .staticBlock
      | .block | .loop | .cases | .catch | .typeScope => []
      | _ => ownAll parts

def ownAll : List Node → List String
  | [] => []
  | n :: rest => own n ++ ownAll rest

/-- What a declarator declares besides its pattern. -/
def ownValue : List Node → List String
  | [] => []
  | _ :: value => ownAll value

end

mutual

/-- The names that a tree declares in the function around it, from any block in it. -/
def hoisted : Node → List String
  | .mk label _ parts =>
      match label with
      | .declarator .var => ownAll (parts.take 1) ++ hoistedAll parts
      | .reference _ | .binding _ | .target _ | .function _ | .arrow _ | .staticBlock => []
      | _ => hoistedAll parts

def hoistedAll : List Node → List String
  | [] => []
  | n :: rest => hoisted n ++ hoistedAll rest

end

/-- The names of a scope that hoisting ends at. -/
def names (parts : List Node) : List String := ownAll parts ++ hoistedAll parts

/-- What is mentioned and not one of some names. -/
def outside (declared : List String) (mentioned : List Mention) : List Mention :=
  mentioned.filter fun m => !declared.contains m.name

def isBody (n : Node) : Bool :=
  match n.label with
  | .body _ => true
  | _ => false

def bodyNames (parts : List Node) : List String := names (parts.filter isBody)

/-- The names of a function: its own and its parameters. -/
def headNames (parts : List Node) : List String := names (parts.filter (!isBody ·))

mutual

/-- What a tree mentions and does not declare, in the order in which it is written. -/
def free : Node → List Mention
  | .mk label span parts =>
      match label with
      | .reference name => [.read name span.start]
      | .binding _ => []
      | .target name => [.write name]
      | .targetShorthand name => .write name :: freeAll parts
      | .function _ | .arrow _ => outside (headNames parts) (freeFunction (bodyNames parts) parts)
      | .staticBlock => outside (names parts) (freeAll parts)
      | .class .expression | .classScope | .block | .loop | .cases | .catch | .typeScope =>
          outside (ownAll parts) (freeAll parts)
      | _ => freeAll parts

def freeAll : List Node → List Mention
  | [] => []
  | n :: rest => free n ++ freeAll rest

/-- What the parts of a function mention; `declared` counts for its body only. -/
def freeFunction (declared : List String) : List Node → List Mention
  | [] => []
  | n :: rest => (if isBody n then outside declared (free n) else free n) ++ freeFunction declared rest

end

/-- No parameter mentions what the body declares and the function does not. -/
def apart (parts : List Node) : Bool :=
  parts.all fun n => isBody n || (free n).all fun m =>
    !(bodyNames parts).contains m.name || (headNames parts).contains m.name

mutual

/-- Whether one pass resolves a tree. A declarator puts an end to any hoisting around it, and hoisting
passes by every scope but that of a function: so none of these stands in the pattern of a hoisted
declarator, which `inPattern` says a tree is a part of. To one pass the name of a class expression
and the hoisted names of a static block belong to the scope around it: so there are none. -/
def tidy (inPattern : Bool) : Node → Bool
  | .mk label _ parts =>
      match label with
      | .declarator kind => !inPattern && tidyDeclarator (kind == .var) parts
      | .function _ | .arrow _ => apart parts && tidyAll inPattern parts
      | .staticBlock => !inPattern && (hoistedAll parts).isEmpty && tidyAll inPattern parts
      | .class .expression => !inPattern && (ownAll parts).isEmpty && tidyAll inPattern parts
      | .classScope | .block | .loop | .cases | .catch | .typeScope =>
          !inPattern && tidyAll inPattern parts
      | _ => tidyAll inPattern parts

def tidyAll (inPattern : Bool) : List Node → Bool
  | [] => true
  | n :: rest => tidy inPattern n && tidyAll inPattern rest

def tidyDeclarator (inPattern : Bool) : List Node → Bool
  | [] => true
  | pattern :: value => tidy inPattern pattern && tidyAll false value

end

theorem ownAll_eq_flatMap (l : List Node) : ownAll l = l.flatMap own := by
  induction l with
  | nil => rfl
  | cons n rest ih => rw [ownAll, ih, List.flatMap_cons]

theorem hoistedAll_eq_flatMap (l : List Node) : hoistedAll l = l.flatMap hoisted := by
  induction l with
  | nil => rfl
  | cons n rest ih => rw [hoistedAll, ih, List.flatMap_cons]

theorem mem_names {parts : List Node} {name : String} :
    name ∈ names parts ↔ ∃ n ∈ parts, name ∈ own n ∨ name ∈ hoisted n := by
  rw [names, ownAll_eq_flatMap, hoistedAll_eq_flatMap, List.mem_append, List.mem_flatMap,
    List.mem_flatMap]
  grind

theorem mem_names_iff {parts : List Node} {name : String} :
    name ∈ names parts ↔ name ∈ headNames parts ∨ name ∈ bodyNames parts := by
  rw [headNames, bodyNames, mem_names, mem_names, mem_names]
  grind

section

variable {l k : List String} {f g : List Mention}

theorem outside_nil : outside [] f = f := List.filter_eq_self.2 fun _ _ => rfl

theorem outside_append : outside l (f ++ g) = outside l f ++ outside l g := List.filter_append ..

theorem outside_outside : outside l (outside k f) = outside (l ++ k) f := by
  rw [outside, outside, outside, List.filter_filter]
  refine List.filter_congr fun m _ => ?_
  rw [List.contains_append, Bool.not_or]

theorem outside_congr (h : ∀ m ∈ f, m.name ∈ l ↔ m.name ∈ k) : outside l f = outside k f := by
  refine List.filter_congr fun m hm => ?_
  rw [Bool.not_inj_iff, Bool.eq_iff_iff, List.contains_iff_mem, List.contains_iff_mem]
  exact h m hm

end

/-- Where no parameter mentions what the body declares, a function may have one scope for both. -/
theorem outside_freeFunction {parts : List Node} (h : apart parts) :
    outside (headNames parts) (freeFunction (bodyNames parts) parts) =
      outside (names parts) (freeAll parts) := by
  have hparts (l : List Node) (hl : ∀ n ∈ l, isBody n ∨ ∀ m ∈ free n,
      m.name ∈ bodyNames parts → m.name ∈ headNames parts) :
      outside (headNames parts) (freeFunction (bodyNames parts) l) =
        outside (names parts) (freeAll l) := by
    induction l with
    | nil => rfl
    | cons n rest ih =>
      rw [freeFunction, freeAll, outside_append, outside_append,
        ih fun n hn => hl n (List.mem_cons_of_mem _ hn)]
      congr 1
      split
      next =>
        rw [outside_outside]
        exact outside_congr fun m _ => by rw [List.mem_append, mem_names_iff]
      next hbody =>
        have hhead := (hl n List.mem_cons_self).resolve_left hbody
        exact outside_congr fun m hm => by
          rw [mem_names_iff]
          exact ⟨.inl, fun h => h.elim id (hhead m hm)⟩
  refine hparts parts fun n hn => ?_
  rcases Bool.or_eq_true_iff.1 (List.all_eq_true.1 h n hn) with hbody | hhead
  · exact .inl hbody
  · refine .inr fun m hm hname => ?_
    have hor := List.all_eq_true.1 hhead m hm
    simpa [hname] using hor

/-- The parts of a function literal that one pass goes over. -/
def literalParts (literal : Node) : List Node :=
  literal.parts.filter fun p => p.label != .typeParameters

/-- What a function literal mentions and does not declare. -/
def freeLiteral (literal : Node) : List Mention :=
  outside (headNames (literalParts literal))
    (freeFunction (bodyNames (literalParts literal)) (literalParts literal))

/-- Whether one pass resolves a function literal. -/
def tidyLiteral (literal : Node) : Bool :=
  apart (literalParts literal) && tidyAll false (literalParts literal)

/-- The names that a function literal assigns to and does not declare. -/
def writtenOutside (literal : Node) : List String :=
  ((freeLiteral literal).filter (!·.isRead)).map (·.name)

/-- What a function literal reads from outside, in order, of the names that it does not write there
and that can be free at all. -/
def readOutside (literal : Node) : List (String × Nat) :=
  ((freeLiteral literal).filterMap Mention.reading?).filter fun p =>
    !(writtenOutside literal).contains p.1 && !neverFree.contains p.1

/-- The offsets at which a name is read. -/
def startsOf (name : String) (readings : List (String × Nat)) : List Nat :=
  (readings.filter (·.1 == name)).map (·.2)

/-- Each name that is read, in the order of the first readings, with the offsets of all of them. -/
def tally (readings : List (String × Nat)) : List FreeVariable :=
  (readings.map (·.1)).eraseDups.map fun name => ⟨name, startsOf name readings⟩

end FineGrain.Lexical

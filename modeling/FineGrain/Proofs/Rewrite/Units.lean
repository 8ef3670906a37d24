import FineGrain.Proofs.Rewrite.Aliases
/-!
Units one after the other. A unit notes what it imports in a frame of its own on top of the others, and
leaving takes that frame away, however the unit has ended. So one transformer answers each of many units
as a new transformer would.
-/

namespace FineGrain

/-- Something that a unit notes in its frame: an alias, or that it imports the framework. -/
inductive Note where
  | alias (role : AliasRole) (name : String)
  | imported
deriving DecidableEq, Repr

namespace AliasFrame

variable {frame : AliasFrame} {notes : List Note} {role : AliasRole} {name : String}

def note (frame : AliasFrame) : Note → AliasFrame
  | .alias role name => frame.add role name
  | .imported => frame.markImported

def noting (frame : AliasFrame) (notes : List Note) : AliasFrame := notes.foldl note frame

theorem noting_append (frame : AliasFrame) (notes more : List Note) :
    frame.noting (notes ++ more) = (frame.noting notes).noting more := List.foldl_append

theorem has_noting : (frame.noting notes).has role name = true ↔
    frame.has role name = true ∨ .alias role name ∈ notes := by
  induction notes generalizing frame with
  | nil => simp [noting]
  | cons n rest ih =>
    refine ih.trans ?_
    cases n with
    | «alias» r n =>
      simp only [note, has_add, List.mem_cons, Note.alias.injEq]
      exact or_assoc
    | imported => simp [note, markImported, has]

theorem imported_noting : (frame.noting notes).imported = true ↔
    frame.imported = true ∨ .imported ∈ notes := by
  induction notes generalizing frame with
  | nil => simp [noting]
  | cons n rest ih =>
    refine ih.trans ?_
    cases n <;> simp [note, markImported]

theorem has_noting_empty : (empty.noting notes).has role name = true ↔ .alias role name ∈ notes :=
  has_noting.trans (by simp [empty, has])

theorem isAlias_noting_empty :
    (empty.noting notes).isAlias name = true ↔ ∃ role, .alias role name ∈ notes := by
  simp only [isAlias_iff, has_noting_empty]

theorem imported_noting_empty : (empty.noting notes).imported = true ↔ .imported ∈ notes :=
  imported_noting.trans (by simp [empty])

end AliasFrame

namespace AliasStack

variable {stack : AliasStack}

/-- A new frame on top of a stack. -/
def enter (stack : AliasStack) : AliasStack := ⟨.empty :: stack.frames⟩

/-- The frame with so many others beneath it. -/
def frame? (stack : AliasStack) (place : Nat) : Option AliasFrame := stack.frames.reverse[place]?

/-- Change the frame with so many others beneath it. -/
def change (stack : AliasStack) (place : Nat) (f : AliasFrame → AliasFrame) : AliasStack :=
  ⟨(stack.frames.reverse.modify place f).reverse⟩

/-- Take away every frame with so many others beneath it. -/
def leave (stack : AliasStack) (place : Nat) : AliasStack := ⟨(stack.frames.reverse.take place).reverse⟩

/-- The stack while the frame entered last is changed, one change after the other. -/
def during (stack : AliasStack) (changes : List (AliasFrame → AliasFrame)) : AliasStack :=
  changes.foldl (fun s f => s.change stack.depth f) stack.enter

theorem change_top (frame : AliasFrame) (frames : List AliasFrame) (f : AliasFrame → AliasFrame) :
    (⟨frame :: frames⟩ : AliasStack).change frames.length f = ⟨f frame :: frames⟩ := by
  have hlast : (frames.reverse ++ [frame]).modify frames.length f = frames.reverse ++ [f frame] := by
    simpa [List.modify] using List.modifyTailIdx_add (List.modifyHead f) 0 frames.reverse [frame]
  simp [change, hlast]

theorem during_eq (stack : AliasStack) (changes : List (AliasFrame → AliasFrame)) :
    stack.during changes = ⟨changes.foldl (fun frame f => f frame) .empty :: stack.frames⟩ := by
  rw [during, enter]
  generalize AliasFrame.empty = frame
  induction changes generalizing frame with
  | nil => rfl
  | cons f rest ih => rw [List.foldl_cons, depth, change_top, ← depth, ih, List.foldl_cons]

/-- A frame that is entered is apart from those beneath it, whatever is done to it.

* `top`: it is the one that is consulted
* `shown`: it shows exactly what has been noted in it
* `beneath`: the others stay as they are
* `left`: leaving it restores the stack -/
structure Apart (stack : AliasStack) : Prop where
  top : ∀ changes, ∃ frame, (stack.during changes).frame? stack.depth = some frame ∧
    (stack.during changes).top? = some frame
  shown : ∀ notes : List Note, ∃ frame,
    (stack.during (notes.map fun n frame => frame.note n)).top? = some frame ∧
      (∀ role name, frame.has role name = true ↔ .alias role name ∈ notes) ∧
      (∀ name, frame.isAlias name = true ↔ ∃ role, .alias role name ∈ notes) ∧
      (frame.imported = true ↔ .imported ∈ notes)
  beneath : ∀ changes place, place < stack.depth →
    (stack.during changes).frame? place = stack.frame? place
  left : ∀ changes, (stack.during changes).leave stack.depth = stack

theorem apart (stack : AliasStack) : stack.Apart where
  top changes := by
    rw [during_eq]
    exact ⟨_, by simp [frame?, depth], rfl⟩
  shown notes := by
    rw [during_eq, List.foldl_map]
    exact ⟨_, rfl, fun _ _ => AliasFrame.has_noting_empty, fun _ => AliasFrame.isAlias_noting_empty,
      AliasFrame.imported_noting_empty⟩
  beneath changes place h := by
    rw [during_eq, frame?, frame?, List.reverse_cons, List.getElem?_append_left]
    rwa [List.length_reverse]
  left changes := by
    rw [during_eq]
    simp [leave, depth]

theorem within_eq (stack : AliasStack) (unit : AliasFrame → α × AliasFrame) :
    stack.within unit =
      ((unit .empty).1, (stack.during [fun frame => (unit frame).2]).leave stack.depth) := by
  rw [stack.apart.left]
  rfl

end AliasStack

namespace Transform

open Grammar

theorem addImported_noting (frame : AliasFrame) (i : Imported) :
    ∃ notes, addImported frame i = frame.noting notes := by
  rw [addImported_eq]
  cases standsFor? i with
  | some a => exact ⟨[.alias a.1 a.2], rfl⟩
  | none => exact ⟨[], rfl⟩

theorem foldl_noting {step : AliasFrame → α → AliasFrame}
    (h : ∀ frame a, ∃ notes, step frame a = frame.noting notes) (frame : AliasFrame) (l : List α) :
    ∃ notes, l.foldl step frame = frame.noting notes := by
  induction l generalizing frame with
  | nil => exact ⟨[], rfl⟩
  | cons a rest ih =>
    obtain ⟨first, hfirst⟩ := h frame a
    obtain ⟨more, hmore⟩ := ih (frame.noting first)
    exact ⟨first ++ more, by rw [List.foldl_cons, hfirst, hmore, AliasFrame.noting_append]⟩

theorem addStatement_noting (options : Options) (frame : AliasFrame) (statement : Node) :
    ∃ notes, addStatement options frame statement = frame.noting notes := by
  rw [addStatement_eq]
  cases frameworkImport? options statement with
  | some declared =>
    obtain ⟨notes, hnotes⟩ := foldl_noting addImported_noting frame.markImported declared.names
    exact ⟨.imported :: notes, hnotes⟩
  | none => exact ⟨[], rfl⟩

theorem onFrame_noting (parse : Parser) (options : Options) (path : Option String)
    (source : List Char) (frame : AliasFrame) :
    ∃ notes, (onFrame parse options path source frame).2 = frame.noting notes := by
  rw [onFrame]
  dsimp only
  split
  · exact ⟨[], rfl⟩
  · rename_i program _
    obtain ⟨notes, hnotes⟩ := foldl_noting (addStatement_noting options) frame program.statements
    refine ⟨notes, ?_⟩
    split <;> exact hnotes

end Transform

/-- A unit to transform: its path, if it has one, and its text. -/
structure SourceUnit where
  path : Option String
  source : List Char
deriving DecidableEq, Repr

namespace Transformer

variable (parse : Grammar.Parser)

def transformEach (t : Transformer) : List SourceUnit →
    List (Except TransformError (List Char)) × Transformer
  | [] => ([], t)
  | u :: rest =>
      let (answer, t) := t.transform u.path u.source parse
      let (answers, t) := t.transformEach rest
      (answer :: answers, t)

theorem snd_transform (t : Transformer) (path : Option String) (source : List Char) :
    (t.transform path source parse).2 = t := by
  rw [transform, AliasStack.within_eq, t.aliases.apart.left]

theorem fst_transform (t : Transformer) (path : Option String) (source : List Char) :
    (t.transform path source parse).1 = ((ofOptions t.options).transform path source parse).1 := by
  rw [transform, transform, AliasStack.within_eq, AliasStack.within_eq]
  rfl

theorem transformEach_eq (t : Transformer) (units : List SourceUnit) : t.transformEach parse units =
    (units.map fun u => ((ofOptions t.options).transform u.path u.source parse).1, t) := by
  induction units with
  | nil => rfl
  | cons u rest ih =>
    rw [transformEach]
    dsimp only
    rw [snd_transform, ih, fst_transform]
    rfl

end Transformer

/-- Whatever reads the units, and whatever units a transformer has taken before, parsed or not, it answers
each unit as a new one with the same options does, and no frame is left behind. A unit notes things in a
frame that is entered for it; that frame shows these and nothing else, and leaving it restores the stack. -/
theorem units_apart (parse : Grammar.Parser) (options : Options) (units : List SourceUnit) :
    ((Transformer.ofOptions options).transformEach parse units).1 =
      (units.map fun u => ((Transformer.ofOptions options).transform u.path u.source parse).1) ∧
    (∀ first, first <+: units →
      ((Transformer.ofOptions options).transformEach parse first).2.depth = 0) ∧
    ∀ stack : AliasStack, stack.Apart ∧ ∀ path source, ∃ notes : List Note,
      (stack.during (notes.map fun n frame => frame.note n)).top? =
        some (Transform.onFrame parse options path source .empty).2 ∧
      (⟨options, stack⟩ : Transformer).transform path source parse =
        ((Transform.onFrame parse options path source .empty).1,
          ⟨options, (stack.during (notes.map fun n frame => frame.note n)).leave stack.depth⟩) := by
  refine ⟨?_, fun first _ => ?_, fun stack => ⟨stack.apart, fun path source => ?_⟩⟩
  · rw [Transformer.transformEach_eq]
    rfl
  · rw [Transformer.transformEach_eq]
    rfl
  · obtain ⟨notes, hnotes⟩ := Transform.onFrame_noting parse options path source .empty
    refine ⟨notes, ?_, ?_⟩
    · rw [AliasStack.during_eq, List.foldl_map, hnotes]
      rfl
    · rw [stack.apart.left, Transformer.transform, AliasStack.within_eq, stack.apart.left]

end FineGrain

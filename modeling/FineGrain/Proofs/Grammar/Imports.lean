import FineGrain.Grammar.Program
/-!
Import declarations declare what they import. A statement is labelled as an import only by the reading
of import declarations, and that pairs each name with the node that declares it.
-/

namespace FineGrain.Grammar

def Imported.binding : Imported → String
  | .default binding | .namespace binding | .named _ binding _ => binding

abbrev Label.isImports : Label → Bool
  | .imports _ => true
  | _ => false

/-- If a node is an import, its parts declare the names that it imports. -/
def Node.Faithful (n : Node) : Prop :=
  ∀ declared, n.label = .imports declared →
    n.parts.map Node.label = declared.names.map fun i => .binding i.binding

/-- Every import declaration of a unit declares the names that it imports. -/
def Program.Faithful (program : Program) : Prop :=
  ∀ statement ∈ program.statements, statement.Faithful

def Node.Plain (n : Node) : Prop := n.label.isImports = false

theorem Node.Plain.faithful {n : Node} (h : n.Plain) : n.Faithful := by
  intro declared hlabel
  rw [Plain, hlabel] at h
  cases h

namespace Read

/-- Whatever a reader answers has a property. -/
def Yields {α : Type} (P : α → Prop) (r : Read α) : Prop :=
  ∀ c s a t, r c s = some (a, t) → P a

namespace Yields

variable {α β : Type} {P Q : α → Prop} {R : β → Prop} {r : Read α} {f : α → Read β}

theorem mono (h : Yields P r) (hPQ : ∀ a, P a → Q a) : Yields Q r :=
  fun c s a t hr => hPQ a (h c s a t hr)

theorem trivial : Yields (fun _ => True) r := fun _ _ _ _ _ => True.intro

theorem refuse : Yields P refuse := by
  intro c s a t h
  cases h

theorem pure {a : α} (h : P a) : Yields P (pure a) := by
  intro c s b t hr
  cases hr
  exact h

theorem bind (hr : Yields P r) (hf : ∀ a, P a → Yields R (f a)) : Yields R (r >>= f) := by
  intro c s b t h
  have h : (r c s).bind (fun p => f p.1 c p.2) = some (b, t) := h
  obtain ⟨⟨a, u⟩, ha, hb⟩ := Option.bind_eq_some_iff.1 h
  exact hf a (hr c s a u ha) c u b t hb

theorem last (hf : ∀ a, Yields R (f a)) : Yields R (r >>= f) := bind trivial fun a _ => hf a

theorem ite {b : Prop} [Decidable b] {r' : Read α} (h : Yields P r) (h' : Yields P r') :
    Yields P (if b then r else r') := by
  split
  · exact h
  · exact h'

theorem within {change : Context → Context} (h : Yields P r) : Yields P (within change r) :=
  fun c s a t hr => h (change c) s a t hr

theorem node {P : Node → Prop} {label : Label} {start : Nat} {parts : List Node}
    (h : ∀ span, P (.mk label span parts)) : Yields P (node label start parts) :=
  last fun _ => pure (h _)

theorem other {label : Label} {start : Nat} {parts : List Node}
    (h : label.isImports = false) : Yields Node.Plain (Read.node label start parts) :=
  node fun _ => h

theorem whileDo {more : Read Bool} (h : Yields P r) :
    ∀ n, Yields (fun l => ∀ a ∈ l, P a) (whileDo more r n)
  | 0 => refuse
  | n + 1 => by
    refine last fun b => ?_
    cases b with
    | false => exact pure (by simp)
    | true =>
      refine bind h fun a ha => bind (whileDo h n) fun rest hrest => pure ?_
      rintro x hx
      rcases List.mem_cons.1 hx with rfl | hx
      · exact ha
      · exact hrest x hx

theorem many {more : Read Bool} (h : Yields P r) : Yields (fun l => ∀ a ∈ l, P a) (many more r) :=
  last fun _ => whileDo h _

theorem commaItems {close : Punct} (h : Yields P r) :
    ∀ n, Yields (fun l => ∀ x ∈ l, P x.1) (commaItems close r n)
  | 0 => refuse
  | n + 1 => by
    refine last fun b => ?_
    cases b with
    | true => exact pure (by simp)
    | false =>
      refine bind h fun a ha => last fun closed => ?_
      cases closed with
      | true => exact pure (by simpa using ha)
      | false =>
        refine last fun _ => bind (commaItems h n) fun rest hrest => pure ?_
        rintro x hx
        rcases List.mem_cons.1 hx with rfl | hx
        · exact ha
        · exact hrest x hx

theorem commaList {close : Punct} (h : Yields P r) :
    Yields (fun l => ∀ x ∈ l, P x.1) (commaList close r) :=
  last fun _ => commaItems h _

end Yields

/-! ### Import declarations -/

def Declares (p : Imported × Node) : Prop := p.2.label = .binding p.1.binding

theorem yields_importedNames : Yields (fun l => ∀ p ∈ l, Declares p) importedNames := by
  refine .last fun _ => .bind (.commaList (P := Declares) ?_) fun items hitems => ?_
  · refine .last fun s => .last fun _ => .last fun _ => ?_
    dsimp only
    split
    · exact .pure rfl
    · exact .bind .refuse fun _ h => h
  · refine .last fun _ => .pure fun p hp => ?_
    obtain ⟨x, hx, rfl⟩ := List.mem_map.1 hp
    exact hitems x hx

theorem yields_importClause (default : Option Node) :
    Yields (fun l => ∀ p ∈ l, Declares p) (importClause default) := by
  unfold importClause
  extract_lets first
  have hfirst : ∀ p ∈ first, Declares p := by
    intro p hp
    simp only [first] at hp
    split at hp
    · obtain rfl := List.mem_singleton.1 hp
      rfl
    · cases hp
  refine .last fun comma => ?_
  split
  · exact .pure hfirst
  · refine .last fun star => ?_
    split
    · refine .last fun _ => .last fun b => ?_
      split
      · rename_i name hname
        refine .pure fun p hp => ?_
        rcases List.mem_append.1 hp with hp | hp
        · exact hfirst p hp
        · obtain rfl := List.mem_singleton.1 hp
          exact hname
      · exact .refuse
    · refine .bind yields_importedNames fun names hnames => .pure fun p hp => ?_
      exact (List.mem_append.1 hp).elim (hfirst p) (hnames p)

theorem yields_importEquals (g : Rules) (start : Nat) (name : Node) :
    Yields Node.Plain (importEquals g start name) := by
  refine .last fun _ => .last fun _ => .last fun _ => ?_
  split
  · refine .last fun _ => .last fun _ => .last fun _ => ?_
    have hend (u : Unit) : Yields Node.Plain (do
        expect .rparen
        statementEnd
        typeDeclaration start [name]) := .last fun _ => .last fun _ => .other rfl
    dsimp only
    split
    · exact .last hend
    · exact .last hend
  · exact .last fun _ => .last fun _ => .other rfl

theorem yields_importDeclaration (g : Rules) : Yields Node.Faithful (importDeclaration g) := by
  unfold importDeclaration
  refine .last fun start => .last fun _ => .last fun t => ?_
  split
  · refine .last fun _ => .last fun _ => .last fun _ => .node fun _ => ?_
    rintro declared ⟨⟩
    rfl
  · refine .last fun _ => ?_
    extract_lets behindName
    have hname (name : Option Node) : Yields Node.Faithful (behindName name) := by
      refine .last fun typeOnly => .last fun _ => .last fun _ => ?_
      extract_lets behindDefault behindPhase
      -- From the inside out: what stands behind the default name, behind the phase, and behind the
      -- name.
      have hclause (default : Option Node) : Yields Node.Faithful (do
          let names ← importClause default
          expectWord "from"
          let source ← moduleSpecifier
          importAttributes
          statementEnd
          node (.imports ⟨source, names.map (·.1), typeOnly⟩) start (names.map (·.2))) := by
        refine .bind (yields_importClause default) fun names hnames => ?_
        refine .last fun _ => .last fun source => .last fun _ => .last fun _ => .node fun _ => ?_
        rintro declared ⟨⟩
        simp only [Node.parts, List.map_map]
        exact List.map_congr_left hnames
      have hdefault (default : Option Node) : Yields Node.Faithful (behindDefault default) := by
        simp only [behindDefault]
        split
        · refine .last fun _ => .last fun _ => ?_
          split
          · exact (yields_importEquals g start _).mono fun _ => Node.Plain.faithful
          · exact hclause _
        · exact hclause _
      clear_value behindDefault
      have hphase (deferred : Bool) : Yields Node.Faithful (behindPhase deferred) := by
        simp only [behindPhase]
        split
        · refine .last fun _ => ?_
          split
          · exact .last fun _ => .last hdefault
          · exact .last hdefault
        · exact .last hdefault
      clear_value behindPhase
      split
      · exact .last hphase
      · refine .last fun _ => ?_
        split <;> exact .last hphase
      · exact .last hphase
    clear_value behindName
    split
    · exact .last fun _ => .last hname
    · exact .last hname

/-! ### Other statements -/

theorem yields_typeDeclaration (start : Nat) (parts : List Node) :
    Yields Node.Plain (typeDeclaration start parts) := .other rfl

theorem yields_classRest (g : Rules) (start : Nat) (role : Role) (named : Bool) (ds : List Node) :
    Yields Node.Plain (classRest g start role named ds) := by
  unfold classRest
  dsimp only
  with_reducible repeat' first | exact .other rfl | refine .ite ?_ ?_ | refine .last fun _ => ?_

theorem yields_functionRest (g : Rules) (start : Nat) (role : Role) (literal async generator : Bool)
    (name : List Node) : Yields Node.Plain (functionRest g start role literal async generator name) := by
  refine .within (.last fun _ => .last fun _ => .last fun _ => .last fun _ => .ite ?_ ?_)
  · exact .last fun _ => .other rfl
  · exact .last fun _ => .ite (.last fun _ => .other rfl) .refuse

theorem yields_functionDeclaration (g : Rules) (start : Nat) (alone named : Bool) :
    Yields Node.Plain (functionDeclaration g start alone named) := by
  unfold functionDeclaration
  dsimp only
  with_reducible
    repeat' first
      | exact yields_functionRest _ _ _ _ _ _ _ | refine .ite ?_ ?_ | refine .last fun _ => ?_

theorem yields_variableList (g : Rules) (start : Nat) (loopHead : Bool) :
    Yields Node.Plain (variableList g start loopHead) :=
  .last fun _ => .last fun _ => .last fun _ => .last fun _ => .other rfl

theorem yields_variableStatement (g : Rules) (start : Nat) (alone : Bool) :
    Yields Node.Plain (variableStatement g start alone) := by
  refine .last fun _ => .bind (yields_variableList g start false) fun d hd => ?_
  exact .last fun _ => .last fun _ => .last fun _ => .pure hd

theorem yields_enumDeclaration (g : Rules) (start : Nat) :
    Yields Node.Plain (enumDeclaration g start) :=
  .last fun _ => .last fun _ => .last fun _ => .last fun _ => .last fun _ => .other rfl

theorem yields_interfaceDeclaration (g : Rules) (start : Nat) :
    Yields Node.Plain (interfaceDeclaration g start) := by
  unfold interfaceDeclaration
  dsimp only
  with_reducible
    repeat' first
      | exact yields_typeDeclaration _ _ | refine .ite ?_ ?_ | refine .last fun _ => ?_

theorem yields_typeAlias (g : Rules) (start : Nat) : Yields Node.Plain (typeAlias g start) := by
  unfold typeAlias
  with_reducible repeat' first | exact yields_typeDeclaration _ _ | refine .last fun _ => ?_

theorem yields_namespaceRest (g : Rules) (start n : Nat) :
    Yields Node.Plain (namespaceRest g start n) := by
  cases n with
  | zero => exact .refuse
  | succ n =>
    refine .last fun _ => .last fun _ => .ite ?_ ?_
    · exact .last fun _ => .last fun _ => yields_typeDeclaration _ _
    · exact .last fun _ => yields_typeDeclaration _ _

theorem yields_namespaceDeclaration (g : Rules) (start : Nat) :
    Yields Node.Plain (namespaceDeclaration g start) := by
  refine .last fun _ => .ite ?_ (.last fun _ => .last fun _ => ?_)
  · exact .last fun _ => .last fun _ => yields_typeDeclaration _ _
  · split
    · refine .last fun _ => .last fun _ => .ite ?_ ?_
      · exact .last fun _ => yields_typeDeclaration _ _
      · exact .last fun _ => yields_typeDeclaration _ _
    · exact .last fun _ => yields_namespaceRest _ _ _

theorem yields_typeDeclarationStatement (g : Rules) (start : Nat) :
    Yields Node.Plain (typeDeclarationStatement g start) := by
  refine .last fun _ => .last fun _ => .last fun _ => .within (.last fun _ => ?_)
  split
  · exact yields_interfaceDeclaration g start
  · exact yields_typeAlias g start
  · exact yields_enumDeclaration g start
  · exact yields_namespaceDeclaration g start
  · exact yields_namespaceDeclaration g start
  · exact yields_namespaceDeclaration g start
  · exact yields_classRest g start .declaration true []
  · exact yields_functionDeclaration g start false true
  · refine .last fun _ => .ite ?_ ?_
    · exact .last fun _ => yields_enumDeclaration g start
    · exact yields_variableStatement g start false
  · exact yields_variableStatement g start false
  · exact yields_variableStatement g start false
  · exact .refuse

theorem yields_exportAll (start : Nat) : Yields Node.Plain (exportAll start) := by
  unfold exportAll
  dsimp only
  with_reducible repeat' first | exact .other rfl | refine .ite ?_ ?_ | refine .last fun _ => ?_

theorem yields_exportedNames (start : Nat) : Yields Node.Plain (exportedNames start) := by
  unfold exportedNames
  with_reducible repeat' first | exact .other rfl | refine .ite ?_ ?_ | refine .last fun _ => ?_

theorem yields_exportDeclaration (g : Rules) (start : Nat) (ds : List Node) :
    Yields Node.Plain (exportDeclaration g start ds) := by
  unfold exportDeclaration
  with_reducible
    repeat' first
      | exact .other rfl | exact .refuse | exact yields_exportAll _ | exact yields_exportedNames _
      | refine .ite ?_ ?_ | refine .last fun _ => ?_

theorem yields_block (g : Rules) : Yields Node.Plain (block g) :=
  .last fun _ => .last fun _ => .last fun _ => .last fun _ => .other rfl

theorem yields_expressionStatement (g : Rules) : Yields Node.Plain (expressionStatement g) := by
  refine .last fun _ => .last fun _ => ?_
  split
  · refine .last fun _ => .ite ?_ ?_
    · exact .last fun _ => .other rfl
    · exact .last fun _ => .other rfl
  · exact .last fun _ => .other rfl

theorem yields_ifStatement (g : Rules) (start : Nat) : Yields Node.Plain (ifStatement g start) :=
  .last fun _ => .last fun _ => .last fun _ => .last fun _ =>
    .ite (.last fun _ => .other rfl) (.other rfl)

theorem yields_doStatement (g : Rules) (start : Nat) : Yields Node.Plain (doStatement g start) :=
  .last fun _ => .last fun _ => .last fun _ => .last fun _ => .last fun _ => .other rfl

theorem yields_conditionStatement (g : Rules) (start : Nat) :
    Yields Node.Plain (conditionStatement g start) :=
  .last fun _ => .last fun _ => .last fun _ => .other rfl

theorem yields_countingLoop (g : Rules) (start : Nat) (init : List Node) (awaits : Bool) :
    Yields Node.Plain (countingLoop g start init awaits) := by
  unfold countingLoop
  with_reducible repeat' first | exact .other rfl | refine .last fun _ => ?_

theorem yields_loopOver (g : Rules) (start : Nat) (left : Node) (awaits : Bool) :
    Yields (fun l => ∀ n ∈ l, n.Plain) (loopOver g start left awaits) := by
  have hloop (parts : List Node) : Yields (fun l => ∀ n ∈ l, n.Plain) (do
      return some (← node .loop start parts)) := by
    refine .bind (.other rfl) fun l hl => .pure ?_
    rintro n ⟨⟩
    exact hl
  refine .last fun _ => .ite ?_ (.last fun _ => .ite ?_ (.pure (by simp)))
  · exact .last fun _ => .last fun _ => .last fun _ => .last fun _ => .last fun _ => hloop _
  · exact .last fun _ => .last fun _ => .last fun _ => .last fun _ => hloop _

theorem yields_forStatement (g : Rules) (start : Nat) :
    Yields Node.Plain (forStatement g start) := by
  unfold forStatement
  refine .last fun _ => .last fun _ => ?_
  extract_lets behindWord
  have hword (awaits : Bool) : Yields Node.Plain (behindWord awaits) := by
    refine .last fun _ => .last fun _ => .ite (yields_countingLoop g start [] awaits) ?_
    refine .last fun here => .last fun declared => ?_
    split
    · rename_i d
      refine .bind (yields_loopOver g start d awaits) fun l hl => ?_
      split
      · exact .pure (hl _ rfl)
      · exact yields_countingLoop g start [d] awaits
    · refine .last fun _ => .last fun e => .last fun _ => .last fun _ => .ite ?_ ?_
      · refine .last fun _ => .last fun _ => .last fun _ => ?_
        split
        · refine .bind (yields_loopOver g start _ awaits) fun l hl => ?_
          split
          · exact .pure (hl _ rfl)
          · exact .refuse
        · exact .refuse
      · exact yields_countingLoop g start [e] awaits
  clear_value behindWord
  refine .ite ?_ ?_
  · exact .last fun _ => .last fun _ => .last fun _ => .last hword
  · exact .last hword

theorem yields_jump (start : Nat) : Yields Node.Plain (jump start) := by
  unfold jump
  dsimp only
  with_reducible repeat' first | exact .other rfl | refine .ite ?_ ?_ | refine .last fun _ => ?_

theorem yields_switchStatement (g : Rules) (start : Nat) :
    Yields Node.Plain (switchStatement g start) := by
  unfold switchStatement
  with_reducible repeat' first | exact .other rfl | refine .last fun _ => ?_

theorem yields_tryStatement (g : Rules) (start : Nat) :
    Yields Node.Plain (tryStatement g start) := by
  unfold tryStatement
  dsimp only
  with_reducible repeat' first | exact .other rfl | refine .ite ?_ ?_ | refine .last fun _ => ?_

theorem yields_returnStatement (g : Rules) (start : Nat) :
    Yields Node.Plain (returnStatement g start) := by
  unfold returnStatement
  dsimp only
  with_reducible repeat' first | exact .other rfl | refine .ite ?_ ?_ | refine .last fun _ => ?_

theorem yields_throwStatement (g : Rules) (start : Nat) :
    Yields Node.Plain (throwStatement g start) :=
  .last fun _ => .last fun _ => .last fun _ => .last fun _ => .last fun _ => .other rfl

theorem yields_usingList (g : Rules) (start : Nat) (loopHead : Bool) :
    Yields Node.Plain (usingList g start loopHead) :=
  .last fun _ => .bind (yields_variableList g start true) fun _ hd => .last fun _ => .pure hd

theorem yields_usingStatement (g : Rules) (start : Nat) (alone : Bool) :
    Yields Node.Plain (usingStatement g start alone) := by
  refine .bind (yields_usingList g start false) fun d hd => ?_
  exact .last fun _ => .last fun _ => .pure hd

theorem yields_decorated (g : Rules) (start : Nat) : Yields Node.Plain (decorated g start) := by
  unfold decorated
  dsimp only
  with_reducible
    repeat' first
      | exact yields_exportDeclaration _ _ _ | exact yields_classRest _ _ _ _ _
      | refine .ite ?_ ?_ | refine .last fun _ => ?_

theorem yields_statementRule (g : Rules) (alone : Bool) :
    Yields Node.Faithful (statementRule g alone) := by
  -- Only one kind of statement imports anything.
  have plain {r : Read Node} (h : Yields Node.Plain r) : Yields Node.Faithful r :=
    h.mono fun _ => Node.Plain.faithful
  refine .last fun start => .last fun t => ?_
  split
  · exact plain (yields_block g)
  · exact plain (.last fun _ => .other rfl)
  · exact plain (yields_decorated g start)
  · exact plain (yields_ifStatement g start)
  · exact plain (yields_doStatement g start)
  · exact plain (yields_conditionStatement g start)
  · exact plain (yields_conditionStatement g start)
  · exact plain (yields_forStatement g start)
  · exact plain (yields_jump start)
  · exact plain (yields_jump start)
  · exact plain (yields_switchStatement g start)
  · exact plain (yields_returnStatement g start)
  · exact plain (yields_throwStatement g start)
  · exact plain (yields_tryStatement g start)
  · exact plain (.last fun _ => .last fun _ => .other rfl)
  · exact plain (.last fun _ => yields_classRest g start .declaration true [])
  · exact plain (yields_exportDeclaration g start [])
  · exact .last fun _ => .ite (plain (yields_expressionStatement g)) (yields_importDeclaration g)
  · exact plain (yields_variableStatement g start alone)
  · refine plain (.last fun _ => .last fun _ => .ite ?_ ?_)
    · exact .last fun _ => yields_enumDeclaration g start
    · exact yields_variableStatement g start alone
  · refine plain (.last fun _ => .ite ?_ ?_)
    · exact yields_variableStatement g start alone
    · exact yields_expressionStatement g
  · exact plain (yields_functionDeclaration g start alone true)
  · refine plain (.last fun _ => .ite ?_ (.last fun _ => .ite ?_ (.last fun _ => .ite ?_ ?_)))
    · exact yields_functionDeclaration g start alone true
    · exact yields_usingStatement g start alone
    · exact yields_typeDeclarationStatement g start
    · exact yields_expressionStatement g
  · exact plain (yields_expressionStatement g)

theorem yields_statement (n : Nat) (alone : Bool) :
    Yields Node.Faithful ((rules n).statement alone) := by
  cases n with
  | zero => exact .refuse
  | succ n => exact yields_statementRule (rules n) alone

theorem splitDirectives_subset (l : List Node) : (splitDirectives l).2 ⊆ l := by
  induction l with
  | nil => exact List.Subset.refl _
  | cons n rest ih =>
    unfold splitDirectives
    split
    · exact fun a ha => List.mem_cons_of_mem _ (ih ha)
    · exact List.Subset.refl _

theorem yields_program (n : Nat) :
    Yields Program.Faithful (program (rules n)) := by
  have hrest (hashbang : Option Span) :
      Yields Program.Faithful (do
        let all ← many (do return (← token).kind != .endOfText) ((rules n).statement false)
        faultIf (Node.anyStrayDefault (splitDirectives all).2)
        return ⟨hashbang, (splitDirectives all).1, (splitDirectives all).2⟩) := by
    refine .bind (.many (yields_statement n false)) fun all hall => .last fun _ => .pure ?_
    exact fun statement hmem => hall statement (splitDirectives_subset all hmem)
  refine .last fun _ => ?_
  dsimp only
  split
  · exact .last fun _ => .last fun _ => .last hrest
  · exact .last hrest

end Read

theorem Program.faithful {dialect : Dialect} {text : List Char} {program : Program}
    (h : Program.parse? dialect text = some program) : program.Faithful := by
  unfold Program.parse? at h
  dsimp only at h
  split at h
  · rename_i p state hread
    split at h
    · cases h
    · obtain rfl := Option.some.inj h
      exact Read.yields_program _ _ _ _ _ hread
  · cases h

end FineGrain.Grammar

import FineGrain.Proofs.Rewrite.Account
import FineGrain.Proofs.Rewrite.Importing
/-!
Every name that a unit reads is spelled as the copy that stands for it, or is no longer read at all. Two
stretches of the unit are not looked at and keep their names as written: the key of a property, where
its object literal is taken apart, and what stands in front of the body of an effect callback.
-/

namespace FineGrain

open Grammar Rewrite

/-- The names that a piece keeps as they are written, whatever copies there are. -/
def Piece.leaks : Piece → List (List Occurrence)
  | leaked _ inside => [inside]
  | _ => []

instance : Sparing Piece.leaks := ⟨fun _ => rfl, fun _ => rfl⟩

/-- The names that the parts of a function literal read in front of its body. -/
def frontOccurrences (s : Setting) : List Node → List Occurrence
  | [] => []
  | [.mk (.body _) _ _] => []
  | n :: rest => occurrences s n ++ frontOccurrences s rest

theorem frontOccurrences_skip {s : Setting} {label : Label} {span : Span} {parts rest : List Node}
    (h : ∀ directives, label = .body directives → rest ≠ []) :
    frontOccurrences s (.mk label span parts :: rest) =
      occurrences s (.mk label span parts) ++ frontOccurrences s rest := by
  rw [frontOccurrences]
  rintro directives _ _ ⟨⟩ rfl
  exact h directives rfl rfl

/-- Names that some node of a tree reads where a rewrite does not look: in the key of a property, or in
front of the body of a function literal. -/
inductive Unseen : Node → List Occurrence → Prop
  | key (s : Setting) (computed : Bool) (span : Span) (parts : List Node) :
      Unseen (.mk (.property .value computed) span parts) (keyOccurrences s parts)
  | front (s : Setting) {label : Label} (span : Span) (parts : List Node)
      (hlabel : isCallback label = true) : Unseen (.mk label span parts) (frontOccurrences s parts)
  | part {label : Label} {span : Span} {parts : List Node} {p : Node} {inside : List Occurrence}
      (hp : p ∈ parts) (h : Unseen p inside) : Unseen (.mk label span parts) inside

/-- Whether all names that are kept as written are unseen in some trees. -/
def Leaks (ns : List Node) (kept : List (List Occurrence)) : Prop :=
  ∀ inside ∈ kept, ∃ n ∈ ns, Unseen n inside

namespace Leaks

variable {n : Node} {rest parts : List Node} {kept more : List (List Occurrence)}

@[simp] theorem nil {ns : List Node} : Leaks ns [] := List.forall_mem_nil _

theorem both {ns : List Node} (h : Leaks ns kept) (hmore : Leaks ns more) : Leaks ns (kept ++ more) :=
  List.forall_mem_append.2 ⟨h, hmore⟩

theorem tail (h : Leaks rest kept) : Leaks (n :: rest) kept := by
  intro inside hinside
  obtain ⟨p, hp, hunseen⟩ := h inside hinside
  exact ⟨p, List.mem_cons_of_mem _ hp, hunseen⟩

theorem head (h : Leaks [n] kept) : Leaks (n :: rest) kept := by
  intro inside hinside
  obtain ⟨p, hp, hunseen⟩ := h inside hinside
  obtain rfl := List.mem_singleton.1 hp
  exact ⟨p, List.mem_cons_self, hunseen⟩

theorem cons (h : Leaks [n] kept) (hmore : Leaks rest more) : Leaks (n :: rest) (kept ++ more) :=
  h.head.both hmore.tail

theorem whole {label : Label} {span : Span} (h : Leaks parts kept) :
    Leaks [.mk label span parts] kept := by
  intro inside hinside
  obtain ⟨p, hp, hunseen⟩ := h inside hinside
  exact ⟨_, List.mem_singleton_self _, .part hp hunseen⟩

theorem of_paren {span : Span} (h : Leaks [.mk .paren span [n]] kept) : Leaks [n] kept := by
  intro inside hinside
  obtain ⟨p, hp, hunseen⟩ := h inside hinside
  obtain rfl := List.mem_singleton.1 hp
  cases hunseen with
  | front s _ _ hlabel => cases hlabel
  | part hpart hunseen => exact ⟨_, hpart, hunseen⟩

end Leaks

/-- The names that the pieces of a plan keep as written. -/
abbrev leaks (plan : List Piece) : List (List Occurrence) := gathered Piece.leaks plan

/-- The names that some sites keep as written. -/
abbrev leaksAll (sites : List Site) : List (List Occurrence) := gatheredAll Piece.leaks sites

theorem leaks_tagPlan {s : Setting} {tag : Node} {name : String} : leaks (tagPlan s tag name) = [] := by
  unfold tagPlan
  split <;> simp [Piece.leaks]

mutual

theorem leaks_sites (s : Setting) : ∀ n : Node, Leaks [n] (leaksAll (sites s n))
  | .mk label span parts => by
    have hall := leaks_sitesAll s parts
    have helement := @leaks_elementPlan s span parts
    have heffect := leaks_effectSites s parts
    have hcontainer := leaks_containerSites s parts
    refine Leaks.whole ?_
    unfold sites
    split
    · split
      · rename_i plan isMarkup hplan
        simpa using helement hplan
      · split
        · exact heffect
        · exact hall
    · split
      · exact hcontainer
      · exact hall
    · simp [Piece.leaks]
    · split
      · simp [Piece.leaks]
      · exact hall
    · exact hall

theorem leaks_sitesAll (s : Setting) : ∀ ns : List Node, Leaks ns (leaksAll (sitesAll s ns))
  | [] => .nil
  | n :: rest => by
    simpa [sitesAll] using (leaks_sites s n).cons (leaks_sitesAll s rest)

theorem leaks_containerSites (s : Setting) : ∀ ns : List Node,
    Leaks ns (leaksAll (containerSites s ns))
  | [] => .nil
  | e :: rest => by
    have he := leaks_sites s e
    have hmore := leaks_sitesAll s rest
    simp only [containerSites, gatheredAll_append]
    refine Leaks.cons ?_ hmore
    split
    · rename_i plan hplan
      simpa using leaks_positionPlan s (spanPlan e.span (sites s e)) e (by simpa using he) hplan
    · exact he

theorem leaks_positionPlan (s : Setting) (whole : List Piece) : ∀ (n : Node) {plan : List Piece},
    Leaks [n] (leaks whole) → positionPlan? s whole n = some plan → Leaks [n] (leaks plan)
  | .mk label span parts, plan, hwhole, hplan => by
    have hproperties := leaks_propertyPlans s parts
    have hinner : ∀ e, parts = [e] → Leaks [e] (leaks whole) →
        positionPlan? s whole e = some plan → Leaks [e] (leaks plan) :=
      match parts with
      | [] | _ :: _ :: _ => by simp
      | [e] => by
        rintro e' ⟨⟩
        exact leaks_positionPlan s whole e
    unfold positionPlan? at hplan
    split at hplan
    all_goals first | cases hplan | skip
    · rename_i e
      exact (hinner e rfl hwhole.of_paren hplan).whole
    · simpa using hproperties.whole
    · simpa [Piece.leaks] using hwhole
    · simpa using hwhole

theorem leaks_propertyPlans (s : Setting) : ∀ ns : List Node,
    Leaks ns ((propertyPlans s ns).flatMap leaks)
  | [] => .nil
  | .mk label span parts :: rest => by
    have hn := leaks_sites s (.mk label span parts)
    have hoperand := leaks_operandPlan s parts
    have hvalue := leaks_valuePlan s parts
    simp only [propertyPlans, List.flatMap_cons]
    refine Leaks.cons ?_ (leaks_propertyPlans s rest)
    split
    · simpa [Piece.leaks] using hoperand.whole
    · rename_i computed
      have hkey : Leaks [.mk (.property .value computed) span parts] [keyOccurrences s parts] :=
        List.forall_mem_singleton.2 ⟨_, List.mem_singleton_self _, .key s computed span parts⟩
      simpa [Piece.leaks] using hkey.both hvalue.whole
    · simpa using hn

theorem leaks_valuePlan (s : Setting) : ∀ ns : List Node, Leaks ns (leaks (valuePlan s ns))
  | [] => .nil
  | [_] => .nil
  | _ :: e :: more => by
    have he := leaks_sites s e
    have hvalue : Leaks [e] (leaks ((positionPlan? s (spanPlan e.span (sites s e)) e).getD
        (spanPlan e.span (sites s e)))) := by
      cases hplan : positionPlan? s (spanPlan e.span (sites s e)) e with
      | none => simpa using he
      | some plan => exact leaks_positionPlan s _ e (by simpa using he) hplan
    simpa [valuePlan, Piece.leaks] using hvalue.head.tail

theorem leaks_operandPlan (s : Setting) : ∀ ns : List Node, Leaks ns (leaks (operandPlan s ns))
  | [] => .nil
  | e :: _ => by simpa [operandPlan, Piece.leaks] using (leaks_sites s e).head

theorem leaks_elementPlan (s : Setting) (call : Span) : ∀ (ns : List Node)
    {plan : List Piece × Bool}, elementPlan? s call ns = some plan → Leaks ns (leaks plan.1)
  | [], _, h => nomatch h
  | [_], _, h => nomatch h
  | callee :: tag :: rest, plan, h => by
    have hprops (s : Setting) := leaks_propsPlan s rest
    have hchildren (s : Setting) := leaks_childrenPlan s rest
    have htag (s : Setting) := leaks_sites s tag
    rcases s.factory_cases callee tag with hfactory | ⟨hfactory, last, hlast⟩ | ⟨hfactory, hother⟩
    · simp [elementPlan?, hfactory] at h
    · simp [elementPlan?, hfactory, hlast] at h
    · simp only [elementPlan?, hfactory, Option.some.injEq] at h
      subst h
      refine Leaks.tail ?_
      cases hkind : s.tag tag with
      | name name =>
        have hrest := (hprops s).both (hchildren s)
        simpa [Piece.leaks, leaks_tagPlan, gathered_children] using hrest.tail
      | fragment => simpa [Piece.leaks] using (hchildren s).tail
      | dynamic =>
        dsimp only
        generalize s.names.pushScope.allocate s.options.tempTagName (s.slice call) = allocated
        let inside : Setting := { s with names := allocated.2 }
        have hrest := (hprops inside).both (hchildren inside)
        simpa [Piece.leaks, inside] using (htag inside).cons hrest

theorem leaks_propsPlan (s : Setting) : ∀ ns : List Node, Leaks ns (leaks (propsPlan s ns))
  | [] => .nil
  | e :: _ => (leaks_attributePlan s _ e (by simpa using leaks_sites s e)).head

theorem leaks_attributePlan (s : Setting) (whole : List Piece) : ∀ n : Node,
    Leaks [n] (leaks whole) → Leaks [n] (leaks (attributePlan s whole n))
  | .mk label span parts, hwhole => by
    have hoperand := leaks_operandPlan s parts
    have hattributes := leaks_attributesPlan s parts
    have hinner : ∀ e, parts = [e] → Leaks [e] (leaks whole) →
        Leaks [e] (leaks (attributePlan s whole e)) :=
      match parts with
      | [] | _ :: _ :: _ => by simp
      | [e] => by
        rintro e' ⟨⟩
        exact leaks_attributePlan s whole e
    unfold attributePlan
    split
    · simpa using hoperand.whole
    · rename_i e
      exact (hinner e rfl hwhole.of_paren).whole
    · simp [Piece.leaks]
    · simp [Piece.leaks]
    · exact hattributes.whole
    · simpa using hwhole

theorem leaks_attributesPlan (s : Setting) : ∀ ns : List Node,
    Leaks ns (leaks (attributesPlan s ns))
  | [] => .nil
  | .mk label span parts :: rest => by
    have hn := leaks_sites s (.mk label span parts)
    have hoperand := leaks_operandPlan s parts
    have hvalue := leaks_valuePlan s parts
    simp only [attributesPlan, gathered_append]
    refine Leaks.cons ?_ (leaks_attributesPlan s rest)
    split
    · split
      · rename_i name quoted hname hquoted
        simp [Piece.leaks, gathered_quotedPlan hquoted]
      · simpa [Piece.leaks] using hvalue.whole
      · simpa using hn
    · simpa using hoperand.whole
    · simpa using hn

theorem leaks_childrenPlan (s : Setting) : ∀ ns : List Node, Leaks ns (leaks (childrenPlan s ns))
  | [] => .nil
  | _ :: children => (leaks_childPlans s children).tail

theorem leaks_childPlans (s : Setting) : ∀ ns : List Node, Leaks ns (leaks (childPlans s ns))
  | [] => .nil
  | .mk label span parts :: rest => by
    have hn := leaks_sites s (.mk label span parts)
    have hoperand := leaks_operandPlan s parts
    have helement := @leaks_elementPlan s span parts
    simp only [childPlans, gathered_append]
    refine Leaks.cons ?_ (leaks_childPlans s rest)
    split
    · simpa using hoperand.whole
    · split <;> simp [Piece.leaks]
    · simpa using hn
    · simpa using hn
    · split
      · rename_i plan isMarkup hplan
        cases isMarkup <;> simpa using (helement hplan).whole
      · simpa using hn
    · rw [gathered_bracedPlan]
      cases hplan : positionPlan? s (spanPlan span (sites s (.mk label span parts)))
          (.mk label span parts) with
      | none => simpa using hn
      | some plan => exact leaks_positionPlan s _ (.mk label span parts) (by simpa using hn) hplan

theorem leaks_effectSites (s : Setting) : ∀ ns : List Node, Leaks ns (leaksAll (effectSites s ns))
  | [] => .nil
  | [callee] => leaks_sites s callee
  | callee :: .mk label span parts :: rest => by
    have hcallee := leaks_sites s callee
    have hn := leaks_sites s (.mk label span parts)
    have hrest := leaks_sitesAll s rest
    cases hcallback : isCallback label with
    | false => simpa [effectSites, hcallback] using hcallee.cons (hn.cons hrest)
    | true =>
      obtain ⟨kept, hkept, hplan⟩ := leaks_bodyPlan s (s.inside (.mk label span parts))
        (s.copies (.mk label span parts)) (label == .arrow true) span [] parts
      have hfront : Leaks [.mk label span parts] [frontOccurrences s parts] :=
        List.forall_mem_singleton.2 ⟨_, List.mem_singleton_self _, .front s span parts hcallback⟩
      have hargument : Leaks [.mk label span parts] (leaks (callbackPlan s (.mk label span parts))) := by
        rw [show leaks (callbackPlan s (.mk label span parts)) = _ from hplan]
        exact hfront.both hkept.whole
      rw [effectSites_callback s hcallback]
      simpa using hcallee.cons (hargument.cons hrest)

theorem leaks_bodyPlan (s inside : Setting) (copies : List Snapshot) (concise : Bool)
    (callback : Span) (front : List Occurrence) : ∀ ns : List Node,
    ∃ kept, Leaks ns kept ∧ leaks (bodyPlan s inside copies concise callback front ns) =
      (front ++ frontOccurrences s ns) :: kept
  | [] => ⟨[], .nil, by simp [bodyPlan, frontOccurrences, Piece.leaks]⟩
  | .mk label span parts :: rest => by
    have hbody := leaks_sitesAll inside parts
    rcases body_or_skip label rest with ⟨directives, rfl, rfl⟩ | hother
    · refine ⟨_, hbody.whole, ?_⟩
      simp [bodyPlan, frontOccurrences, Piece.leaks]
    · obtain ⟨kept, hkept, hplan⟩ := leaks_bodyPlan s inside copies concise callback
        (front ++ occurrences s (.mk label span parts)) rest
      refine ⟨kept, hkept.tail, ?_⟩
      rw [bodyPlan_skip hother, hplan, frontOccurrences_skip hother, List.append_assoc]

end

namespace Transform

variable {s : Setting} {program : Program}

theorem accounted_unitPlan : accounted (unitPlan s program) = occurrencesAll s program.statements := by
  simp [unitPlan, tally_sitesAll]

theorem leaks_unitPlan : Leaks program.statements (leaks (unitPlan s program)) := by
  simpa [unitPlan] using leaks_sitesAll s program.statements

/-- The text of a unit, the import of the helpers left aside, is that of a plan that accounts for every
name the unit reads, once and in order. Each of them is spelled in that text, as the copy that stands
for it if there is one, or it is no longer read, or it stands where a rewrite does not look. -/
theorem names_spelled (options : Options) (frame : AliasFrame) (names : Names) {text : List Char}
    {program : Program} (h : Sound text program) :
    let s := setting options frame text names
    let plan := unitPlan s program
    let unlinked := { options with injectRuntimeImport := false }
    output unlinked program text (editsAll (setting unlinked frame text names) program.statements) =
        render text plan ∧
      accounted plan = occurrencesAll s program.statements ∧
      ∀ o ∈ occurrencesAll s program.statements,
        (.spelled o ∈ plan ∨ .expanded o ∈ plan ∨ .tag o ∈ plan) ∨
          (∃ gone, .dropped gone ∈ plan ∧ o ∈ gone) ∨
          ∃ n ∈ program.statements, ∃ inside, Unseen n inside ∧ o ∈ inside := by
  intro s plan unlinked
  obtain ⟨-, rest, hplan, hanswer, -⟩ := output_imported options frame names h
  refine ⟨hanswer.trans hplan.symm, accounted_unitPlan, fun o ho => ?_⟩
  rw [← accounted_unitPlan, accounted, gathered, List.mem_flatMap] at ho
  obtain ⟨piece, hpiece, ho⟩ := ho
  cases piece with
  | source | made | binds => cases ho
  | spelled own | expanded own | tag own =>
    obtain rfl := List.mem_singleton.1 ho
    simp [plan, s, hpiece]
  | dropped gone => exact .inr (.inl ⟨gone, hpiece, ho⟩)
  | leaked span inside =>
    have hkept : inside ∈ leaks plan := List.mem_flatMap.2 ⟨_, hpiece, List.mem_singleton_self _⟩
    obtain ⟨n, hn, hunseen⟩ := leaks_unitPlan inside hkept
    exact .inr (.inr ⟨n, hn, inside, hunseen, ho⟩)

/-- The key of a property in a literal that is taken apart goes on reading the variable itself. -/
example : ((Transformer.ofOptions {}).transform none
      ("import\x7bcreateElement as h,useEffect\x7dfrom\"react\";" ++
        "useEffect(()=>h(\"p\",null,\x7b[x]:x\x7d))").toList).1.toOption =
    some ("import \x7b __peek \x7d from \"reactant/runtime\";\n".toList ++
      "import\x7bcreateElement as h,useEffect\x7dfrom\"react\";".toList ++
      "useEffect(()=>\x7b const x_ = __peek(x); return <p>\x7b\x7b [x]:x_ \x7d\x7d</p>; \x7d)".toList) := by
  decide +kernel

end Transform

end FineGrain

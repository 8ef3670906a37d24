import FineGrain.Proofs.Rewrite.Gathering
/-!
A plan accounts for every name that its tree reads, once and in the order in which they are written.
-/

namespace FineGrain

open Grammar Rewrite

abbrev accounted (plan : List Piece) : List Occurrence := gathered Piece.occurrences plan

/-- The names that some sites account for. -/
abbrev tally (sites : List Site) : List Occurrence := gatheredAll Piece.occurrences sites

instance : Sparing Piece.occurrences := ⟨fun _ => rfl, fun _ => rfl⟩

variable {s : Setting}

theorem accounted_tagPlan {tag : Node} {name : String} :
    accounted (tagPlan s tag name) = occurrences s tag := by
  unfold tagPlan
  split
  · rename_i own span parts hinner
    rw [← occurrences_inner tag, hinner]
    simp [Piece.occurrences, occurrences]
  · simp [Piece.occurrences]

theorem occurrencesAll_of_shorthand {parts : List Node} {o : Occurrence}
    (h : shorthand? s parts = some o) : occurrencesAll s parts = [o] := by
  unfold shorthand? at h
  split at h
  · obtain rfl := Option.some.inj h
    simp [occurrencesAll, occurrences]
  · cases h

mutual

theorem tally_sites (s : Setting) : ∀ n : Node, tally (sites s n) = occurrences s n
  | .mk label span parts => by
    have hall := tally_sitesAll s parts
    have helement := accounted_elementPlan s span parts
    unfold sites
    -- A call and a container are accounted for by plans of their own, a name by itself, and all
    -- other nodes by their parts.
    split
    · simp only [occurrences]
      split
      · rename_i plan isMarkup hplan
        rw [hplan] at helement
        obtain ⟨inside, hinside, haccounted⟩ := Option.map_eq_some_iff.1 helement.symm
        simp [hinside, haccounted]
      · rename_i hplan
        rw [hplan] at helement
        have hinside := Option.map_eq_none_iff.1 helement.symm
        simp only [hinside]
        split
        · exact tally_effectSites s parts
        · exact hall
    · have hoccurrences : occurrences s (.mk .container span parts) = occurrencesAll s parts := by
        simp [occurrences]
      rw [hoccurrences]
      split
      · exact tally_containerSites s parts
      · exact hall
    · simp [occurrences, Piece.occurrences]
    · simp only [occurrences]
      split
      · rename_i o ho
        simp [Piece.occurrences, occurrencesAll_of_shorthand ho]
      · exact hall
    · rw [hall]
      unfold occurrences
      split
      · simp_all
      · simp_all
      · rfl

theorem tally_sitesAll (s : Setting) : ∀ ns : List Node, tally (sitesAll s ns) = occurrencesAll s ns
  | [] => rfl
  | n :: rest => by simp [sitesAll, occurrencesAll, tally_sites s n, tally_sitesAll s rest]

theorem tally_containerSites (s : Setting) :
    ∀ ns : List Node, tally (containerSites s ns) = occurrencesAll s ns
  | [] => rfl
  | e :: rest => by
    have he := tally_sites s e
    simp only [containerSites, occurrencesAll, gatheredAll_append, tally_sitesAll s rest]
    split
    · rename_i plan hplan
      simp [accounted_positionPlan s (spanPlan e.span (sites s e)) e (by simpa using he) hplan]
    · simp [he]

theorem accounted_positionPlan (s : Setting) (whole : List Piece) : ∀ (n : Node) {plan : List Piece},
    accounted whole = occurrences s n → positionPlan? s whole n = some plan →
      accounted plan = occurrences s n
  | .mk label span parts, plan, hwhole, hplan => by
    have hinner : ∀ e, parts = [e] → accounted whole = occurrences s e →
        positionPlan? s whole e = some plan → accounted plan = occurrences s e :=
      match parts with
      | [] | _ :: _ :: _ => by simp
      | [e] => by
        rintro e' ⟨⟩
        exact accounted_positionPlan s whole e
    unfold positionPlan? at hplan
    split at hplan
    all_goals first | cases hplan | skip
    · rename_i e
      rw [occurrences_paren] at hwhole ⊢
      exact hinner e rfl hwhole hplan
    · simp [accounted_propertyPlans s parts, occurrences]
    · simpa [Piece.occurrences] using hwhole
    · simpa using hwhole

theorem accounted_propertyPlans (s : Setting) :
    ∀ ns : List Node, (propertyPlans s ns).flatMap accounted = occurrencesAll s ns
  | [] => rfl
  | .mk label span parts :: rest => by
    have hn := tally_sites s (.mk label span parts)
    simp only [propertyPlans, List.flatMap_cons, occurrencesAll, accounted_propertyPlans s rest]
    congr 1
    split
    · simp [Piece.occurrences, accounted_operandPlan s parts, occurrences]
    · simp [Piece.occurrences, accounted_valuePlan s parts, occurrences]
    · simpa using hn

theorem accounted_valuePlan (s : Setting) : ∀ ns : List Node,
    keyOccurrences s ns ++ accounted (valuePlan s ns) = occurrencesAll s ns
  | [] => rfl
  | [key] => by simp [keyOccurrences, valuePlan, occurrencesAll]
  | key :: e :: more => by
    have he := tally_sites s e
    have hvalue : accounted ((positionPlan? s (spanPlan e.span (sites s e)) e).getD
        (spanPlan e.span (sites s e))) = occurrences s e := by
      cases hplan : positionPlan? s (spanPlan e.span (sites s e)) e with
      | none => simpa using he
      | some plan => exact accounted_positionPlan s _ e (by simpa using he) hplan
    simp [keyOccurrences, valuePlan, occurrencesAll, hvalue, Piece.occurrences]

theorem accounted_operandPlan (s : Setting) :
    ∀ ns : List Node, accounted (operandPlan s ns) = occurrencesAll s ns
  | [] => rfl
  | e :: more => by simp [operandPlan, occurrencesAll, tally_sites s e, Piece.occurrences]

theorem accounted_elementPlan (s : Setting) (call : Span) : ∀ ns : List Node,
    (elementPlan? s call ns).map (fun plan => accounted plan.1) =
      (s.atElement? call ns).map (occurrencesAll · ns)
  | [] => rfl
  | [_] => rfl
  | callee :: tag :: rest => by
    have hprops (s : Setting) := accounted_propsPlan s rest
    have hchildren (s : Setting) := accounted_childrenPlan s rest
    have htag (s : Setting) := tally_sites s tag
    rcases s.factory_cases callee tag with hfactory | ⟨hfactory, last, hlast⟩ | ⟨hfactory, hother⟩
    · simp [elementPlan?, Setting.atElement?, hfactory]
    · simp [elementPlan?, Setting.atElement?, hfactory, hlast]
    · simp only [elementPlan?, Setting.atElement?, hfactory]
      cases hkind : s.tag tag with
      | name name =>
        simp only [Option.map_some, gathered_cons, Piece.occurrences, gathered_taggedPlan,
          accounted_tagPlan, hprops, gathered_children, occurrencesAll, ← hchildren,
          List.append_assoc]
      | fragment =>
        simp [Piece.occurrences, occurrencesAll, ← hchildren]
      | dynamic =>
        simp [Piece.occurrences, occurrencesAll, htag, hprops, ← hchildren]

theorem accounted_propsPlan (s : Setting) :
    ∀ ns : List Node, accounted (propsPlan s ns) = keyOccurrences s ns
  | [] => rfl
  | e :: _ => accounted_attributePlan s (spanPlan e.span (sites s e)) e (by simpa using tally_sites s e)

theorem accounted_attributePlan (s : Setting) (whole : List Piece) : ∀ n : Node,
    accounted whole = occurrences s n → accounted (attributePlan s whole n) = occurrences s n
  | .mk label span parts, hwhole => by
    have hinner : ∀ e, parts = [e] → accounted whole = occurrences s e →
        accounted (attributePlan s whole e) = occurrences s e :=
      match parts with
      | [] | _ :: _ :: _ => by simp
      | [e] => by
        rintro e' ⟨⟩
        exact accounted_attributePlan s whole e
    unfold attributePlan
    split
    · simp [accounted_operandPlan s parts, occurrences]
    · rename_i e
      rw [occurrences_paren] at hwhole ⊢
      exact hinner e rfl hwhole
    · simp [Piece.occurrences, occurrences]
    · simp [Piece.occurrences, occurrences]
    · simp [accounted_attributesPlan s parts, occurrences]
    · simpa using hwhole

theorem accounted_attributesPlan (s : Setting) :
    ∀ ns : List Node, accounted (attributesPlan s ns) = occurrencesAll s ns
  | [] => rfl
  | .mk label span parts :: rest => by
    have hn := tally_sites s (.mk label span parts)
    simp only [attributesPlan, occurrencesAll, gathered_append, accounted_attributesPlan s rest]
    congr 1
    split
    · split
      · rename_i name quoted hname hquoted
        simp [Piece.occurrences, gathered_quotedPlan hquoted, occurrences]
      · simp [Piece.occurrences, accounted_valuePlan s parts, occurrences]
      · simpa using hn
    · simp [accounted_operandPlan s parts, occurrences]
    · simpa using hn

theorem accounted_childrenPlan (s : Setting) : ∀ ns : List Node,
    keyOccurrences s ns ++ accounted (childrenPlan s ns) = occurrencesAll s ns
  | [] => rfl
  | _ :: children => by
    simp [childrenPlan, keyOccurrences, occurrencesAll, accounted_childPlans s children]

theorem accounted_childPlans (s : Setting) :
    ∀ ns : List Node, accounted (childPlans s ns) = occurrencesAll s ns
  | [] => rfl
  | .mk label span parts :: rest => by
    have hn := tally_sites s (.mk label span parts)
    simp only [childPlans, occurrencesAll, gathered_append, accounted_childPlans s rest]
    congr 1
    split
    · simp [accounted_operandPlan s parts, occurrences]
    · split <;> simp [Piece.occurrences, occurrences]
    · simpa using hn
    · simpa using hn
    · have helement := accounted_elementPlan s span parts
      simp only [occurrences]
      split
      · rename_i plan isMarkup hplan
        rw [hplan] at helement
        obtain ⟨inside, hinside, haccounted⟩ := Option.map_eq_some_iff.1 helement.symm
        cases isMarkup <;> simp [hinside, haccounted]
      · simpa [occurrences] using hn
    · rw [gathered_bracedPlan]
      cases hplan : positionPlan? s (spanPlan span (sites s (.mk label span parts)))
          (.mk label span parts) with
      | none => simpa using hn
      | some plan => exact accounted_positionPlan s _ (.mk label span parts) (by simpa using hn) hplan

theorem tally_effectSites (s : Setting) :
    ∀ ns : List Node, tally (effectSites s ns) = effectOccurrences s ns
  | [] => rfl
  | [callee] => by simp [effectSites, effectOccurrences, tally_sites s callee]
  | callee :: .mk label span parts :: rest => by
    simp only [effectSites, effectOccurrences, gatheredAll_append, tally_sites s callee,
      tally_sitesAll s rest]
    congr 2
    split
    · simp [accounted_bodyPlan]
    · exact tally_sites s (.mk label span parts)

theorem accounted_bodyPlan (s inside : Setting) (copies : List Snapshot) (concise : Bool)
    (callback : Span) (front : List Occurrence) : ∀ ns : List Node,
    accounted (bodyPlan s inside copies concise callback front ns) =
      front ++ callbackOccurrences s inside ns
  | [] => by simp [bodyPlan, callbackOccurrences, Piece.occurrences]
  | .mk label span parts :: rest => by
    have hbody := tally_sitesAll inside parts
    have hn := tally_sites s (.mk label span parts)
    have hrest (front : List Occurrence) :=
      accounted_bodyPlan s inside copies concise callback front rest
    unfold bodyPlan callbackOccurrences
    split
    · simp_all
    · simp_all [Piece.occurrences]
    · simp_all

end

end FineGrain

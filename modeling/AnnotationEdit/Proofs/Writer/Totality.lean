import AnnotationEdit.Proofs.Batch.Fitting
import AnnotationEdit.Proofs.Deletion.Settling
import AnnotationEdit.Proofs.Syntax.Plots

/-!
# Writers return

What is carried out for a batch can always be written, on a document that is read from a text: the
brackets of every list, the ends of its members and the sign in front of a bare annotation are
found among the tokens (`Scene.write_cases`). Deletion ranges never leave the tokens
(`Scene.inBounds_of_mem_deletionRounds`). So a writer returns edits unless the final check finds that
they overlap (`Writer.textEdits_cases`).
-/

namespace AnnotationEdit

open Syntax (Node)

theorem Syntax.AssignmentsWrittenAs.atSign_isSome {vocabulary : Vocabulary} {as : List Assignment}
    {compound : Option Range} {ts : List Token} (h : AssignmentsWrittenAs vocabulary as compound ts)
    (hnone : compound = none) : ∀ a ∈ as, a.atSign.isSome = true := by
  induction h with
  | nil => exact fun a ha => absurd ha List.not_mem_nil
  | @bare sign a as compound us vs _ ha _ ih =>
      refine List.forall_mem_cons.mpr ⟨?_, ih hnone⟩
      rw [ha.atSign_eq]
      rfl
  | compound => cases hnone

namespace Scene

/-- The document of the scene is read from a text, whose places are numbers of 64 bits. -/
def Parsed (s : Scene) : Prop :=
  ∃ uri text config, Document.parse uri text config = .ok s.document ∧ text.length < Text.wordBound

variable {s : Scene} {d : Draft} {p : Pointer} {n : Node}

/-- The code tokens of the document. -/
def code (s : Scene) : List Token := s.tokens.tokens.toList.filter Token.isCode

/-! ## Places of nodes -/

theorem Parsed.sorted (hs : s.Parsed) : s.tokens.Sorted := by
  obtain ⟨uri, text, config, hparse, _⟩ := hs
  obtain ⟨_, _, _, _, hsorted, _⟩ := Document.tokens_of_parse hparse
  exact hsorted

theorem Parsed.exists_written (hs : s.Parsed) (hn : s.document.syntaxTree.resolve? p = some n) :
    ∃ vocabulary ts, List.Sublist ts s.code ∧ n.WrittenAs vocabulary ts := by
  obtain ⟨uri, text, config, hparse, _⟩ := hs
  obtain ⟨ts, hts, hwritten⟩ := Document.exists_written hparse hn
  exact ⟨config.aliases, ts, hts, hwritten⟩

theorem Parsed.within (hs : s.Parsed) (hn : s.document.syntaxTree.resolve? p = some n)
    (hfile : ∀ f, n ≠ .file f) : Within s.code n.range := by
  obtain ⟨vocabulary, ts, hts, hwritten⟩ := hs.exists_written hn
  exact (hwritten.within hfile).weaken hts

/-- The ranges of the members of a list stand on code tokens too. -/
theorem Parsed.within_members (hs : s.Parsed) (hn : s.document.syntaxTree.resolve? p = some n) :
    ∀ r ∈ n.memberRanges, Within s.code r := by
  obtain ⟨vocabulary, ts, hts, hwritten⟩ := hs.exists_written hn
  have hlaid : ∀ {α : Type} {written : α → List Token → Prop} {range : α → Range} {es : List α},
      Laid written es ts → (∀ e us, written e us → Spans us (range e)) →
      ∀ r ∈ es.map range, Within s.code r := by
    intro α written range es hes hspans r hr
    obtain ⟨e, he, rfl⟩ := List.mem_map.mp hr
    obtain ⟨us, hus, hwritten⟩ := hes.exists_written e he
    exact ⟨us, hus.trans hts, hspans e us hwritten⟩
  cases n with
  | target t =>
      exact hlaid (Node.laid_assignmentsOf hwritten) fun a us h => Syntax.spans_assignment h.choose_spec
  | groupItems i => exact hlaid (Node.laid_groupItems hwritten) fun a us h => h.1.spans
  | record r => exact hlaid (Node.laid_entries hwritten) fun e us h => Syntax.spans_entry h
  | collection v => exact hlaid (Node.laid_values hwritten) fun v us h => Syntax.spans_value h
  | _ => exact fun r hr => absurd hr List.not_mem_nil

theorem Parsed.exists_startingAt? (hs : s.Parsed) {r : Range} (h : Within s.code r) :
    ∃ i, s.tokens.startingAt? r.start = some i := by
  obtain ⟨i, _, t, _, hi, _, _, _, _, rfl⟩ := hs.sorted.exists_bounds h
  exact ⟨i, TokenStream.startingAt?_eq_some hs.sorted hi⟩

theorem Parsed.exists_endingAt? (hs : s.Parsed) {r : Range} (h : Within s.code r) :
    ∃ i, s.tokens.endingAt? r.stop = some i := by
  obtain ⟨_, j, _, u, _, hj, _, _, _, rfl⟩ := hs.sorted.exists_bounds h
  exact ⟨j, TokenStream.endingAt?_eq_some hs.sorted hj⟩

/-! ## Insertions -/

theorem exists_bracketed (hs : s.Parsed) {r : Range} (hr : Within s.code r) (members : List Range) :
    ∃ list, s.bracketed p r members = .ok list ∧ list.members = members := by
  obtain ⟨i, hi⟩ := hs.exists_startingAt? hr
  obtain ⟨j, hj⟩ := hs.exists_endingAt? hr
  rw [bracketed, hi, hj]
  exact ⟨_, rfl, rfl⟩

theorem exists_opening (hs : s.Parsed) {sign paren closing : Token}
    (hsub : [sign, paren, closing].Sublist s.code) :
    ∃ i m opening, s.tokens.startingAt? sign.range.start = some i ∧
      s.tokens.nextCode? i = some m ∧ s.tokens.get? m = some opening ∧ opening ∈ s.code ∧
      sign.range.start ≤ opening.range.start ∧ opening.range.Before closing.range := by
  have hmem : ∀ u ∈ [sign, paren, closing], ∃ i, s.tokens.get? i = some u ∧ u.isCode = true := by
    intro u hu
    obtain ⟨hu, hcode⟩ := List.mem_filter.mp (hsub.subset hu)
    obtain ⟨i, hi⟩ := TokenStream.exists_get? hu
    exact ⟨i, hi, hcode⟩
  obtain ⟨i, hi, _⟩ := hmem sign (by simp)
  obtain ⟨j, hj, hcode⟩ := hmem paren (by simp)
  obtain ⟨k, hk, _⟩ := hmem closing (by simp)
  have happart := (hs.sorted.sublist (hsub.trans List.filter_sublist)).apart
  obtain ⟨hsign, hparen⟩ := List.pairwise_cons.mp happart
  have hij : i < j := (hs.sorted.start_lt_iff hi hj).mp
    (lt_of_lt_of_le (hs.sorted.proper hi) (hsign paren (by simp)))
  have hjk : j < k := (hs.sorted.start_lt_iff hj hk).mp
    (lt_of_lt_of_le (hs.sorted.proper hj) ((List.pairwise_cons.mp hparen).1 closing (by simp)))
  obtain ⟨m, hm, hmj⟩ :=
    TokenStream.nextCode?_isSome hij (TokenStream.test_eq_true.mpr ⟨_, hj, hcode⟩)
  obtain ⟨him, htest, _⟩ := TokenStream.nextCode?_eq_some_iff.mp hm
  obtain ⟨opening, hopening, hopeningCode⟩ := TokenStream.test_eq_true.mp htest
  exact ⟨i, m, opening, TokenStream.startingAt?_eq_some hs.sorted hi, hm, hopening,
    List.mem_filter.mpr ⟨TokenStream.mem_of_get? hopening, hopeningCode⟩,
    hs.sorted.start_le hi hopening (Nat.le_of_lt him),
    hs.sorted.before hopening hk (Nat.lt_of_le_of_lt hmj hjk)⟩

theorem exists_compoundList (hs : s.Parsed) {t : Syntax.Target} {r : Range}
    (ht : s.document.syntaxTree.resolve? p = some (.target t)) (hr : t.compound = some r) :
    ∃ list closing, s.compoundList p t r = .ok list ∧ list.pointer = p ∧
      list.members = t.assignments.map (·.range) ∧ closing ∈ s.code ∧
      list.closing = closing.range ∧ r.stop = closing.range.stop := by
  obtain ⟨vocabulary, ts, hts, us, vs, hsub, _, has, _⟩ := hs.exists_written ht
  have hvs : vs.Sublist s.code := ((List.sublist_append_right us vs).trans hsub).trans hts
  obtain ⟨sign, paren, closing, hpair, rfl, _⟩ :=
    has.exists_parenthesized (hs.sorted.sublist (hvs.trans List.filter_sublist)) hr
  obtain ⟨i, m, opening, hi, hm, hopening, _⟩ := exists_opening hs (hpair.trans hvs)
  have hclosing : closing ∈ s.code := (hpair.trans hvs).subset (by simp)
  obtain ⟨k, hk⟩ := TokenStream.exists_get? (List.mem_filter.mp hclosing).1
  rw [compoundList, hi, Option.bind_some, hm]
  simp only [bracketed, TokenStream.rangeAt_of_get? hopening,
    TokenStream.startingAt?_eq_some hs.sorted hopening, TokenStream.endingAt?_eq_some hs.sorted hk]
  exact ⟨_, closing, rfl, rfl, rfl, hclosing, TokenStream.rangeAt_of_get? hk, rfl⟩

theorem exists_insertMember (hs : s.Parsed) {list : BracketedList} {index : Option Nat}
    {fragment : Nat → String} (hmembers : ∀ r ∈ list.members, Within s.code r) :
    ∃ d', s.insertMember d list index fragment = .ok d' := by
  rw [insertMember]
  split
  · exact ⟨_, rfl⟩
  · next last hlast =>
    split
    · exact ⟨_, rfl⟩
    · obtain ⟨i, hi⟩ := hs.exists_endingAt? (hmembers last (List.mem_of_getLast? hlast))
      rw [append, hi]
      simp only
      split
      · exact ⟨_, rfl⟩
      · exact ⟨_, rfl⟩

theorem exists_insertBracketed (hs : s.Parsed) (hn : s.document.syntaxTree.resolve? p = some n)
    (hfile : ∀ f, n ≠ .file f) (index : Option Nat) (fragment : Nat → String) :
    ∃ d', (do
      let list ← s.bracketed p n.range n.memberRanges
      s.insertMember d list index fragment) = .ok d' := by
  obtain ⟨list, hlist, hmembers⟩ := exists_bracketed hs (hs.within hn hfile) n.memberRanges
  rw [hlist]
  refine exists_insertMember hs ?_
  rw [hmembers]
  exact hs.within_members hn

theorem node_eq (hn : s.document.syntaxTree.resolve? p = some n) : s.node p = .ok n := by
  rw [node, hn]

/-- The scene has annotations for what gets parentheses. -/
def Prepared (s : Scene) : Prop :=
  ∀ q t, s.isConverting q = true → s.document.syntaxTree.resolve? q = some (.target t) →
    t.assignments ≠ []

theorem exists_insertConverting {t : Syntax.Target} {index : Option Nat} {e : Tree.Element}
    (h : t.assignments ≠ []) : ∃ d', s.insertConverting d t index e = .ok d' := by
  rw [insertConverting]
  obtain ⟨first, rest, hassignments⟩ := List.exists_cons_of_ne_nil h
  rw [hassignments, List.head?_cons]
  simp only
  split
  · exact ⟨_, rfl⟩
  · exact ⟨_, rfl⟩

theorem exists_group (hs : s.Parsed) {i : Syntax.GroupItems}
    (hn : s.document.syntaxTree.resolve? p = some (.groupItems i)) :
    ∃ q g, p = q.append ["items"] ∧ s.document.syntaxTree.resolve? q = some (.group g) ∧
      i = g.items := by
  obtain ⟨uri, text, config, hparse, _⟩ := hs
  rcases Document.exists_step hparse hn with ⟨_, hfile⟩ | ⟨q, path, parent, rfl, hq, _, hstep⟩
  · cases hfile
  · generalize hnode : Node.groupItems i = m at hstep
    cases hstep with
    | member _ _ _ hne => exact absurd hnode.symm (hne i)
    | groupItems g => exact ⟨q, g, rfl, hq, Node.groupItems.inj hnode⟩
    | qualifier _ => cases hnode
    | annotationValue _ v => exact absurd hnode.symm (Node.ofValue_ne_groupItems v i)
    | propertyValue _ v => exact absurd hnode.symm (Node.ofValue_ne_groupItems v i)

theorem exists_groupOf (hs : s.Parsed) {i : Syntax.GroupItems}
    (hn : s.document.syntaxTree.resolve? p = some (.groupItems i)) :
    ∃ g, s.groupOf p = .ok g := by
  obtain ⟨q, g, rfl, hq, _⟩ := exists_group hs hn
  have hparent : (q.append ["items"]).parent? = some q := q.ancestor?_append ["items"]
  rw [groupOf, hparent, Option.bind_some, hq]
  exact ⟨g, rfl⟩

theorem exists_insertAnnotation (hs : s.Parsed) (hprepared : s.Prepared) {index : Option Nat}
    {e : Tree.Element} (hn : s.document.syntaxTree.resolve? p = some n)
    (hsuits : Insertable.annotation.suits n = true) :
    ∃ d', s.insertAnnotation d p index e = .ok d' := by
  rw [ insertAnnotation, node_eq hn]
  cases n with
  | target t =>
      simp only [bind, Except.bind]
      split
      · next hconverting => exact exists_insertConverting (hprepared p t hconverting hn)
      · split
        · next r hr =>
          obtain ⟨list, _, hlist, _, hmembers, _⟩ := exists_compoundList hs hn hr
          rw [hlist]
          refine exists_insertMember hs ?_
          rw [hmembers]
          exact hs.within_members hn
        · exact ⟨_, rfl⟩
  | groupItems i =>
      obtain ⟨g, hg⟩ := exists_groupOf hs hn
      simp only [bind, Except.bind, hg]
      exact exists_insertBracketed hs hn (fun _ => Node.noConfusion) _ _
  | _ => cases hsuits

theorem exists_insertEmbedded (hs : s.Parsed) {index : Option Nat} {e : Tree.Element}
    (hn : s.document.syntaxTree.resolve? p = some n)
    (hsuits : Insertable.suits Insertable.embeddedAnnotation n = true) :
    ∃ d', s.insertEmbedded d p index e = .ok d' := by
  rw [insertEmbedded, node_eq hn]
  cases n with
  | record r => exact exists_insertBracketed hs hn (fun _ => Node.noConfusion) _ _
  | annotation a => exact ⟨_, rfl⟩
  | _ => cases hsuits

theorem exists_insertProperty (hs : s.Parsed) {index : Option Nat} {e : Tree.Element}
    (hn : s.document.syntaxTree.resolve? p = some n)
    (hsuits : Insertable.recordProperty.suits n = true) :
    ∃ d', s.insertProperty d p index e = .ok d' := by
  rw [insertProperty, node_eq hn]
  cases n with
  | record r => exact exists_insertBracketed hs hn (fun _ => Node.noConfusion) _ _
  | _ => cases hsuits

/-- A name without a value has room for one. -/
theorem exists_fillSlot {fragment : Nat → String} (h : n.isValueless = true) :
    ∃ d', s.fillSlot d n fragment = .ok d' := by
  cases n with
  | annotation a =>
      rw [fillSlot]
      simp only [show a.value.isNone = true from h, if_true]
      exact ⟨_, rfl⟩
  | property q =>
      rw [fillSlot]
      simp only [show q.value.isNone = true from h, if_true]
      exact ⟨_, rfl⟩
  | _ => cases h

theorem exists_insertValue (hs : s.Parsed) {index : Option Nat} {e : Tree.Element}
    (hn : s.document.syntaxTree.resolve? p = some n)
    (hsuits : Insertable.primitiveValue.suits n = true) :
    ∃ d', s.insertValue d p index e = .ok d' := by
  rw [insertValue, node_eq hn]
  cases n with
  | collection v => exact exists_insertBracketed hs hn (fun _ => Node.noConfusion) _ _
  | annotation a => exact exists_fillSlot (n := Node.annotation a) hsuits
  | property q => exact exists_fillSlot (n := .property q) hsuits
  | _ => cases hsuits

theorem exists_insertElement (hs : s.Parsed) (hprepared : s.Prepared) {what : Insertable}
    {index : Option Nat} {e : Tree.Element} (hn : s.document.syntaxTree.resolve? p = some n)
    (hsuits : what.suits n = true) : ∃ d', s.insertElement d p what index e = .ok d' := by
  cases what with
  | annotation => exact exists_insertAnnotation hs hprepared hn hsuits
  | embeddedAnnotation => exact exists_insertEmbedded hs hn hsuits
  | recordProperty => exact exists_insertProperty hs hn hsuits
  | record => exact exists_insertValue hs hn hsuits
  | collection => exact exists_insertValue hs hn hsuits
  | primitiveValue => exact exists_insertValue hs hn hsuits

/-! ## Deletions -/

def isListChild : Node → Bool
  | Node.annotation _ | .group _ | .property _ => true
  | _ => false

theorem exists_container (hs : s.Parsed) (hn : s.document.syntaxTree.resolve? p = some n)
    (hkind : isListChild n = true) :
    ∃ i q parent, p.lastIndex? = some i ∧ p.ancestor? 2 = some q ∧
      s.document.syntaxTree.resolve? q = some parent := by
  obtain ⟨uri, text, config, hparse, hlength⟩ := hs
  rcases Document.exists_step hparse hn with ⟨_, rfl⟩ | ⟨q, path, parent, rfl, hq, _, hstep⟩
  · cases hkind
  · cases hstep with
    | member name i hi =>
        exact ⟨i, q, parent, Pointer.lastIndex?_append_toString (Nat.lt_trans hi hlength),
          q.ancestor?_append [name, toString i], hq⟩
    | groupItems g => cases hkind
    | qualifier _ => cases hkind
    | annotationValue _ v => cases v <;> cases hkind
    | propertyValue _ v => cases v <;> cases hkind

theorem exists_deleteListChild (hs : s.Parsed) (hn : s.document.syntaxTree.resolve? p = some n)
    (hkind : isListChild n = true) :
    ∃ d', s.deleteListChild d p = .ok d' := by
  obtain ⟨i, q, parent, hi, hq, hparent⟩ := exists_container hs hn hkind
  rw [deleteListChild, node_eq hn, hi, hq]
  simp only [bind, Except.bind, node_eq hparent]
  cases n with
  | annotation a => exact ⟨_, rfl⟩
  | group g => exact ⟨_, rfl⟩
  | property r => exact ⟨_, rfl⟩
  | _ => cases hkind

theorem toString_ne_value {i : Nat} (hi : i < Text.wordBound) : toString i ≠ "value" := by
  intro h
  have hnumber := Text.number?_toString i
  have hname : Text.number? "value" = none := by decide
  rw [if_pos hi, h, hname] at hnumber
  cases hnumber

/-- A value is a member of a collection, or stands after a name. -/
theorem exists_deleteValue (hs : s.Parsed) (hn : s.document.syntaxTree.resolve? p = some n)
    (hvalue : n.isValue = true) : ∃ d', s.deleteValue d p = .ok d' := by
  rw [deleteValue, node_eq hn]
  obtain ⟨uri, text, config, hparse, hlength⟩ := hs
  rcases Document.exists_step hparse hn with ⟨_, rfl⟩ | ⟨q, path, parent, rfl, hq, _, hstep⟩
  · cases hvalue
  · cases hstep with
    | member name i hi =>
        have hbound := Nat.lt_trans hi hlength
        have hlast : (q.append [name, toString i]).last? = some (toString i) :=
          Pointer.last?_append rfl
        have hne : (some (toString i) == some "value") = false :=
          beq_eq_false_iff_ne.mpr fun h => toString_ne_value hbound (Option.some.inj h)
        simp only [bind, Except.bind, hlast, hne, Pointer.lastIndex?_append_toString hbound]
        exact ⟨_, rfl⟩
    | groupItems g => cases hvalue
    | qualifier _ => cases hvalue
    | annotationValue a v =>
        have hlast : (q.append ["value"]).last? = some "value" := Pointer.last?_append rfl
        have hparent : (q.append ["value"]).parent? = some q := q.ancestor?_append ["value"]
        simp only [bind, Except.bind, hlast, beq_self_eq_true, hparent, node_eq hq]
        exact ⟨_, rfl⟩
    | propertyValue r v =>
        have hlast : (q.append ["value"]).last? = some "value" := Pointer.last?_append rfl
        have hparent : (q.append ["value"]).parent? = some q := q.ancestor?_append ["value"]
        simp only [bind, Except.bind, hlast, beq_self_eq_true, hparent, node_eq hq]
        exact ⟨_, rfl⟩

theorem exists_deleteElement (hs : s.Parsed) {what : Deletable}
    (hn : s.document.syntaxTree.resolve? p = some n) (hsuits : what.suits n = true) :
    ∃ d', s.deleteElement d p what = .ok d' := by
  have hassignment : Deletable.annotation.suits n = true → isListChild n = true := by
    intro h
    cases n <;> first | rfl | cases h
  cases what with
  | target =>
      rw [deleteElement, deleteTarget, node_eq hn]
      cases n with
      | target t => exact ⟨_, rfl⟩
      | _ => cases hsuits
  | annotation => exact exists_deleteListChild hs hn (hassignment hsuits)
  | annotationGroup => exact exists_deleteListChild hs hn (hassignment hsuits)
  | annotationGroupItems =>
      rw [deleteElement, deleteGroupItems, node_eq hn]
      cases n with
      | groupItems i => exact ⟨_, rfl⟩
      | _ => cases hsuits
  | embeddedAnnotation =>
      refine exists_deleteListChild hs hn ?_
      cases n with
      | annotation a => rfl
      | _ => cases hsuits
  | record => exact exists_deleteValue hs hn hsuits
  | collection => exact exists_deleteValue hs hn hsuits
  | primitiveValue => exact exists_deleteValue hs hn hsuits
  | recordProperty =>
      refine exists_deleteListChild hs hn ?_
      cases n with
      | property q => rfl
      | _ => cases hsuits
  | qualifier =>
      rw [deleteElement, deleteQualifier, node_eq hn]
      cases n with
      | qualifier q => exact ⟨_, rfl⟩
      | _ => cases hsuits

/-! ## Replacements -/

theorem exists_replaceNode {e : Tree.Element} (hn : s.document.syntaxTree.resolve? p = some n)
    (hsuits : (Action.replaceNode e).suits n = true) : ∃ d', s.replaceNode d p e = .ok d' := by
  rw [replaceNode, node_eq hn]
  cases n with
  | annotation a =>
      simp only [bind, Except.bind]
      split
      · exact ⟨_, rfl⟩
      · exact ⟨_, rfl⟩
  | group g => exact ⟨_, rfl⟩
  | record r => exact ⟨_, rfl⟩
  | collection v => exact ⟨_, rfl⟩
  | primitive q => exact ⟨_, rfl⟩
  | _ => cases hsuits

theorem exists_updatePrimitive {e : Tree.Element} (hn : s.document.syntaxTree.resolve? p = some n)
    (hsuits : (Action.updatePrimitiveValue e).suits n = true) :
    ∃ d', s.updatePrimitive d p e = .ok d' := by
  rw [updatePrimitive, node_eq hn]
  cases n with
  | primitive q => exact ⟨_, rfl⟩
  | annotation a => exact exists_fillSlot (n := Node.annotation a) hsuits
  | property q => exact exists_fillSlot (n := .property q) hsuits
  | _ => cases hsuits

/-- Flags are written, unless they would take the place of a single value. -/
theorem setFlags_cases {value : String} (hn : s.document.syntaxTree.resolve? p = some n)
    (hsuits : (Action.setFlags value).suits n = true) :
    (∃ d', s.setFlags d p value = .ok d') ∨
      ∃ reason, s.setFlags d p value = .error (.ambiguous "set-flags" reason) := by
  rw [setFlags, node_eq hn]
  cases n with
  | collection v => exact Or.inl ⟨_, rfl⟩
  | primitive q => exact Or.inr ⟨_, rfl⟩
  | annotation a =>
      left
      show ∃ d', s.fillSlot d (Node.annotation a) (fun _ => Printer.flags value) = .ok d'
      exact exists_fillSlot hsuits
  | property q =>
      left
      show ∃ d', s.fillSlot d (.property q) (fun _ => Printer.flags value) = .ok d'
      exact exists_fillSlot hsuits
  | _ => cases hsuits

/-- The only annotation of a target without parentheses has a sign of its own. -/
theorem exists_convertToCompound (hs : s.Parsed) {unnecessary : Bool}
    (hn : s.document.syntaxTree.resolve? p = some n)
    (hsuits : (Action.convertToCompound unnecessary).suits n = true) :
    ∃ d', s.convertToCompound d p unnecessary = .ok d' := by
  cases unnecessary with
  | true => exact ⟨d, rfl⟩
  | false =>
      cases n with
      | target t =>
          obtain ⟨hnone, hlength⟩ := Bool.and_eq_true_iff.mp hsuits
          obtain ⟨first, hfirst⟩ := List.length_eq_one_iff.mp (beq_iff_eq.mp hlength)
          obtain ⟨vocabulary, ts, _, us, vs, _, _, has, _⟩ := hs.exists_written hn
          have hsign := has.atSign_isSome (Option.isNone_iff_eq_none.mp hnone) first
            (hfirst ▸ List.mem_singleton_self first)
          obtain ⟨sign, hsign⟩ := Option.isSome_iff_exists.mp hsign
          rw [convertToCompound, node_eq hn]
          simp only [bind, Except.bind, hfirst, List.head?_cons, hsign, Bool.false_eq_true, if_false]
          split
          · exact ⟨_, rfl⟩
          · exact ⟨_, rfl⟩
      | _ => cases hsuits

/-! ## Moves -/

theorem exists_slot (hs : s.Parsed) {r : Range} (hr : Within s.code r) :
    ∃ slot, s.slot r = .ok slot := by
  obtain ⟨i, hi⟩ := hs.exists_startingAt? hr
  obtain ⟨j, hj⟩ := hs.exists_endingAt? hr
  rw [slot, hi, hj]
  exact ⟨_, rfl⟩

theorem exists_mapM {α β : Type} {f : α → Except Error β} : ∀ {as : List α},
    (∀ a ∈ as, ∃ b, f a = .ok b) → ∃ bs, as.mapM f = .ok bs
  | [], _ => ⟨[], rfl⟩
  | a :: as, h => by
      obtain ⟨b, hb⟩ := h a List.mem_cons_self
      obtain ⟨bs, hbs⟩ := exists_mapM fun a ha => h a (List.mem_cons_of_mem _ ha)
      rw [List.mapM_cons, hb, hbs]
      exact ⟨_, rfl⟩

theorem exists_cut (items : Pointer) {source : Pointer} (hindex : source.lastIndex?.isSome = true)
    (hresolves : s.document.syntaxTree.Resolves source) : ∃ cut, s.cut items source = .ok cut := by
  obtain ⟨m, hm⟩ := Option.isSome_iff_exists.mp hresolves
  obtain ⟨i, hi⟩ := Option.isSome_iff_exists.mp hindex
  rw [cut, node_eq hm, hi]
  exact ⟨_, rfl⟩

theorem exists_survivors {v : Syntax.Collection}
    (hitems : ∀ item ∈ v.items, ∃ slot, s.slot item.range = .ok slot) (cuts : List Cut) :
    ∃ slots, s.survivors v cuts = .ok slots := by
  refine exists_mapM ?_
  rintro ⟨item, i⟩ hitem
  have hmem : item ∈ v.items := by
    obtain ⟨hmem, _⟩ := List.mem_filter.mp hitem
    exact List.mem_of_getElem? (List.mem_zipIdx_iff_getElem?.mp hmem)
  obtain ⟨slot, hslot⟩ := hitems item hmem
  simp only [hslot]
  exact ⟨_, rfl⟩

theorem exists_endsInComma {v : Syntax.Collection}
    (hitems : ∀ item ∈ v.items, ∃ slot, s.slot item.range = .ok slot) (place : Nat) :
    ∃ comma, s.endsInComma v place = .ok comma := by
  rw [endsInComma]
  split
  · next item hlast =>
    split
    · obtain ⟨slot, hslot⟩ := hitems item (List.mem_of_getLast? hlast)
      rw [hslot]
      exact ⟨_, rfl⟩
    · exact ⟨_, rfl⟩
  · exact ⟨_, rfl⟩

theorem exists_moveItems (hs : s.Parsed) {index : Option Nat} {sources : List Pointer}
    {v : Syntax.Collection} (hn : s.document.syntaxTree.resolve? p = some (.collection v))
    (hsources : ∀ q ∈ sources, q.lastIndex?.isSome = true ∧ s.document.syntaxTree.Resolves q) :
    ∃ d', s.moveItems d p index sources = .ok d' := by
  have hitems : ∀ item ∈ v.items, ∃ slot, s.slot item.range = .ok slot := by
    intro item hitem
    exact exists_slot hs (hs.within_members hn _ (List.mem_map_of_mem hitem))
  obtain ⟨cuts, hcuts⟩ := exists_mapM fun q hq =>
    exists_cut (s := s) (p.child "items") (hsources q hq).1 (hsources q hq).2
  obtain ⟨survivors, hsurvivors⟩ := exists_survivors hitems cuts
  rw [moveItems, node_eq hn]
  simp only [bind, Except.bind, hcuts, hsurvivors]
  split
  · exact ⟨_, rfl⟩
  · next place last hlast =>
    split
    · exact ⟨_, rfl⟩
    · obtain ⟨comma, hcomma⟩ := exists_endsInComma hitems place
      rw [hcomma]
      exact ⟨_, rfl⟩

/-- Everything that fits the tree is written, unless it would turn a single value into flags. -/
theorem write_cases (hs : s.Parsed) (hprepared : s.Prepared) {o : Operation}
    (ho : o.Fits s.document.syntaxTree) :
    (∃ d', s.write d o = .ok d') ∨ ∃ value reason, o.action = .setFlags value ∧
      s.write d o = .error (.ambiguous "set-flags" reason) := by
  obtain ⟨⟨n, hn, hsuits⟩, hsources⟩ := ho
  obtain ⟨p, action⟩ := o
  cases action with
  | insertTarget index target => exact Or.inl ⟨_, rfl⟩
  | insertReference reference => exact Or.inl ⟨_, rfl⟩
  | insert what index e => exact Or.inl (exists_insertElement hs hprepared hn hsuits)
  | insertQualifier value =>
      left
      show ∃ d', s.insertQualifier d p value = .ok d'
      rw [Scene.insertQualifier, node_eq hn]
      cases n with
      | annotation a => exact ⟨_, rfl⟩
      | _ => cases hsuits
  | delete what => exact Or.inl (exists_deleteElement hs hn hsuits)
  | replaceNode e => exact Or.inl (exists_replaceNode hn hsuits)
  | replaceRecordProperty e =>
      left
      show ∃ d', s.replaceProperty d p e = .ok d'
      rw [replaceProperty, node_eq hn]
      cases n with
      | property q => exact ⟨_, rfl⟩
      | _ => cases hsuits
  | replaceTextValue text =>
      left
      show ∃ d', s.replaceText d p text = .ok d'
      rw [replaceText, node_eq hn]
      cases n with
      | primitive q => exact ⟨_, rfl⟩
      | _ => cases hsuits
  | updatePrimitiveValue e => exact Or.inl (exists_updatePrimitive hn hsuits)
  | setFlags value =>
      rcases setFlags_cases (d := d) hn hsuits with hok | ⟨reason, herror⟩
      · exact Or.inl hok
      · exact Or.inr ⟨value, reason, rfl, herror⟩
  | moveCollectionValue index sources =>
      left
      cases n with
      | collection v => exact exists_moveItems hs hn hsources
      | _ => cases hsuits
  | convertToCompound unnecessary => exact Or.inl (exists_convertToCompound hs hn hsuits)

/-- A batch that fits the tree is written as a whole. -/
theorem exists_writeAll (hs : s.Parsed) (hprepared : s.Prepared) :
    ∀ {operations : List Operation} {d : Draft},
      (∀ o ∈ operations, o.Fits s.document.syntaxTree) →
      ∃ d', s.writeAll d operations = .ok d'
  | [], d, _ => ⟨d, rfl⟩
  | o :: rest, d, h => by
      obtain ⟨ho, hrest⟩ := List.forall_mem_cons.mp h
      rw [writeAll]
      rcases write_cases (d := d) hs hprepared ho with ⟨d', hd'⟩ | ⟨value, reason, _, herror⟩
      · rw [hd']
        exact exists_writeAll hs hprepared hrest
      · rw [herror]
        exact exists_writeAll hs hprepared hrest

/-! ## The scene of a batch -/

/-- A target gets parentheses because an operation says so, which fits it. -/
theorem prepared_ofOperations {document : Document} {config : Configuration}
    {operations : List Operation} (h : ∀ o ∈ operations, o.Fits document.syntaxTree) :
    (ofOperations document config operations).Prepared := by
  intro q t hconverting ht
  obtain ⟨⟨p, unnecessary⟩, hfind, hnecessary⟩ := (Option.any_eq_true _ _).mp hconverting
  obtain rfl : p = q := beq_iff_eq.mp (List.find?_some (p := fun (x : Pointer × Bool) => x.1 == q) hfind)
  obtain ⟨o, ho, heq⟩ := List.mem_filterMap.mp (List.mem_reverse.mp (List.mem_of_find?_eq_some hfind))
  obtain ⟨⟨n, hn, hsuits⟩, _⟩ := h o ho
  split at heq
  · next haction =>
    obtain ⟨rfl, rfl⟩ := Prod.mk.inj (Option.some.inj heq)
    obtain rfl : n = .target t := Option.some.inj (hn.symm.trans ht)
    rw [haction] at hsuits
    have hlength := beq_iff_eq.mp (Bool.and_eq_true_iff.mp hsuits).2
    intro hnil
    rw [hnil] at hlength
    cases hlength
  · cases heq

theorem deletionRange?_inBounds {request : DeletionRequest} {r : DeletionRange}
    (h : s.deletionRange? request = some r) : r.InBounds s.tokens := by
  obtain ⟨r', hr', rfl⟩ := Option.map_eq_some_iff.mp h
  have hbounds := DeletionRange.ofNode?_inBounds hr'
  exact ⟨hbounds.first_le_last, hbounds.last_lt⟩

/-- The ranges of a draft after some rounds of growing and merging. -/
def deletionRounds (s : Scene) (d : Draft) (n : Nat) : List DeletionRange :=
  (DeletionRange.expandAndMerge (s.deletionContext d))^[n] (d.deletions.filterMap s.deletionRange?)

/-- In no round does a range leave the tokens, nor do the tokens that are removed with it. -/
theorem inBounds_of_mem_deletionRounds (s : Scene) (d : Draft) (n : Nat) :
    ∀ r ∈ s.deletionRounds d n, r.InBounds s.tokens ∧
      r.lastWithSeparator s.tokens < s.tokens.size := by
  intro r hr
  have hbounds : r.InBounds s.tokens := by
    apply DeletionRange.inBounds_iterate ?_ n r hr
    intro r hr
    obtain ⟨request, _, hrequest⟩ := List.mem_filterMap.mp hr
    exact deletionRange?_inBounds hrequest
  exact ⟨hbounds, DeletionRange.lastWithSeparator_lt hbounds⟩

end Scene

namespace Writer

/-- A writer on a document that is read from a text, with operations that it has accepted. The edits
for them are returned, or two of them overlap, and nothing else can go wrong: of all that is carried
out for the batch, an operation is written into whatever the ones before it have left, unless it is
an ambiguous one that is skipped; and no deletion, in no round, leaves the tokens. The places of a
text are numbers of 64 bits. -/
theorem textEdits_cases {uri text : String} {c config : Configuration} {document : Document}
    {operations : List Operation} {w : Writer} (hparse : Document.parse uri text c = .ok document)
    (hlength : text.length < Text.wordBound)
    (hadd : (ofDocument document config).addAll operations = .ok w) :
    let reduced := Batch.reduce document.syntaxTree w.changes
    let scene := Scene.ofOperations document config reduced
    (∀ o ∈ reduced, ∀ d, (∃ d', scene.write d o = .ok d') ∨
      ∃ value reason, o.action = .setFlags value ∧
        scene.write d o = .error (.ambiguous "set-flags" reason)) ∧
    (∀ d n, ∀ r ∈ scene.deletionRounds d n,
      r.InBounds scene.tokens ∧ r.lastWithSeparator scene.tokens < scene.tokens.size) ∧
    ((∃ edits, w.textEdits = .ok edits) ∨
      ∃ d e, scene.writeAll .empty reduced = .ok d ∧
        RankedEdit.overlap? .origin
          (RankedEdit.arrange document.lines (scene.complete d).edits) = some e ∧
        w.textEdits = .error (.internal ("edits overlap at " ++ e.range.display))) := by
  intro reduced scene
  obtain ⟨hdocument, hconfig, hfits⟩ := fits_of_addAll hadd fun _ h => absurd h List.not_mem_nil
  have hreduced : ∀ o ∈ reduced, o.Fits document.syntaxTree := Batch.fits_of_mem_reduce hfits
  have hparsed : scene.Parsed := ⟨uri, text, c, hparse, hlength⟩
  have hprepared : scene.Prepared := Scene.prepared_ofOperations hreduced
  refine ⟨fun o ho d => Scene.write_cases hparsed hprepared (hreduced o ho),
    fun d n => scene.inBounds_of_mem_deletionRounds d n, ?_⟩
  obtain ⟨d, hd⟩ := Scene.exists_writeAll (d := .empty) hparsed hprepared hreduced
  have hedits : w.textEdits = scene.finish d := by
    rw [textEdits, hdocument, hconfig]
    show (scene.writeAll .empty reduced).bind scene.finish = scene.finish d
    rw [hd]
    rfl
  rw [hedits, Scene.finish]
  split
  · next e hoverlap => exact Or.inr ⟨d, e, hd, hoverlap, rfl⟩
  · exact Or.inl ⟨_, rfl⟩

/-- A text with a group and a bare annotation of a member. -/
def mixedText : String :=
  "annotate E with @UI : \x7bHidden, Title : 'a'\x7d \x7b m @A : \x7bp : 1\x7d; \x7d;"

/-- Deletions that empty their group, a second annotation beside a bare one, and flags in place of a
single value. -/
def mixedBatch : List Operation :=
  [⟨⟨["targets", "0", "terms", "0"]⟩, .delete Deletable.annotation⟩,
    ⟨⟨["targets", "0", "terms", "1"]⟩, .delete Deletable.annotation⟩,
    ⟨⟨["targets", "1"]⟩, .insert Insertable.annotation none
      ⟨Tree.ElementKind.annotation, [("Term", ⟨"Term", "B", none⟩)], [], none, none⟩⟩,
    ⟨⟨["targets", "1", "terms", "0", "content", "0", "content", "0", "content", "0"]⟩,
      .setFlags "a"⟩]

theorem textEdits_cases_mixed :
    ∃ document w, Document.parse "a.cds" mixedText .default = .ok document ∧
      (ofDocument document .default).addAll mixedBatch = .ok w ∧
      ((∃ edits, w.textEdits = .ok edits) ∨
        ∃ e : TextEdit, w.textEdits =
          .error (.internal ("edits overlap at " ++ e.range.display))) := by
  have haccepted : ((Document.parse "a.cds" mixedText .default).toOption.any fun document =>
      ((ofDocument document .default).addAll mixedBatch).isOk) = true := by decide +kernel
  cases hparse : Document.parse "a.cds" mixedText .default with
  | error e =>
      rw [hparse] at haccepted
      cases haccepted
  | ok document =>
      rw [hparse] at haccepted
      change ((ofDocument document .default).addAll mixedBatch).isOk = true at haccepted
      cases hadd : (ofDocument document .default).addAll mixedBatch with
      | error e =>
          rw [hadd] at haccepted
          cases haccepted
      | ok w =>
          refine ⟨document, w, rfl, hadd, ?_⟩
          rcases (textEdits_cases hparse (by decide +kernel) hadd).2.2 with hok | ⟨_, e, _, _, he⟩
          · exact Or.inl hok
          · exact Or.inr ⟨e, he⟩

end Writer

end AnnotationEdit

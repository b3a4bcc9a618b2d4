import AnnotationEdit.Proofs.Batch.OrderIndependence
import AnnotationEdit.Proofs.Locate.Soundness
import AnnotationEdit.Writer.Queue

/-!
# Operations that fit the tree

An operation on the concrete tree fits it when its pointer leads to a node of a kind that its action
works on. Every operation that is accepted is turned into one that fits (`fits_of_addAll`). Reducing
a batch drops operations, folds several into one and makes up new ones; those that are left fit too
(`fits_of_mem_reduce`), whichever nodes the made up ones are about.
-/

namespace AnnotationEdit

open Syntax (Node)

/-! ## Which nodes an action works on -/

/-- The member goes into the list, or the value after the name. -/
def Insertable.suits : Insertable → Node → Bool
  | Insertable.annotation, .target _ | Insertable.annotation, .groupItems _ => true
  | Insertable.embeddedAnnotation, .record _ => true
  | Insertable.embeddedAnnotation, Node.annotation _ => true
  | .recordProperty, .record _ => true
  | .record, n | .collection, n | .primitiveValue, n =>
    match n with
    | .collection _ => true
    | n => n.isValueless
  | _, _ => false

def Deletable.suits : Deletable → Node → Bool
  | .target, .target _ => true
  | Deletable.annotation, n | .annotationGroup, n =>
    match n with
    | Node.annotation _ | .group _ => true
    | _ => false
  | .annotationGroupItems, .groupItems _ => true
  | Deletable.embeddedAnnotation, Node.annotation _ => true
  | .record, n | .collection, n | .primitiveValue, n => n.isValue
  | .recordProperty, .property _ => true
  | .qualifier, .qualifier _ => true
  | _, _ => false

def Action.suits : Action → Node → Bool
  | .insertTarget .., _ | .insertReference _, _ => true
  | .insert what _ _, n => what.suits n
  | .insertQualifier _, Node.annotation _ => true
  | .delete what, n => what.suits n
  | .replaceNode _, n =>
    match n with
    | Node.annotation _ | .group _ => true
    | n => n.isValue
  | .replaceRecordProperty _, .property _ => true
  | .replaceTextValue _, .primitive _ => true
  | .updatePrimitiveValue _, n =>
    match n with
    | .primitive _ => true
    | n => n.isValueless
  | .setFlags _, n =>
    match n with
    | .collection _ | .primitive _ => true
    | n => n.isValueless
  | .moveCollectionValue .., .collection _ => true
  | .convertToCompound _, .target t => t.compound.isNone && t.assignments.length == 1
  | _, _ => false

namespace Operation

/-- The pointer leads to a node that the action works on, and what is moved are members of lists. -/
structure Fits (file : Syntax.File) (o : Operation) : Prop where
  node : ∃ n, file.resolve? o.pointer = some n ∧ o.action.suits n = true
  sources : ∀ p ∈ o.sources, p.lastIndex?.isSome = true ∧ file.Resolves p

theorem Fits.mk_node {file : Syntax.File} {p : Pointer} {action : Action} {n : Node}
    (hn : file.resolve? p = some n) (hsuits : action.suits n = true)
    (hsources : Operation.sources ⟨p, action⟩ = []) : Fits file ⟨p, action⟩ :=
  ⟨⟨n, hn, hsuits⟩, fun _ hq => absurd (hsources ▸ hq) List.not_mem_nil⟩

end Operation

/-! ## Accepted operations -/

namespace Conversion.Context

open Locate (Yields)
open Operation (Fits)

variable {c : Context} {kind : String} {p : Pointer} {index : Option Nat} {e : Tree.Element}

/-- An operation is refused unless a check passes. -/
theorem yields_unless {α : Type} {P : α → Prop} {check : Bool} {r : Except Error α}
    {reason : String} (h : check = true → Yields P r) :
    Yields P (if check then r else refuse kind reason) := by
  cases check with
  | false => exact .error
  | true => exact h rfl

/-- A node that is found is the one at the pointer that is returned. -/
theorem located_yields :
    Yields (fun r => locate p c.document.tree c.document.syntaxTree c.vocabulary = .ok r.1 ∧
      c.document.syntaxTree.resolve? r.1.pointer = some r.2) (c.resolve p) := by
  intro r hr
  rw [resolve] at hr
  cases hlocate : locate p c.document.tree c.document.syntaxTree c.vocabulary with
  | error e =>
      rw [hlocate] at hr
      cases hr
  | ok located =>
      simp only [hlocate, bind, Except.bind] at hr
      split at hr
      · next n hn =>
        obtain rfl := Except.ok.inj hr
        exact ⟨rfl, hn⟩
      · cases hr

theorem resolve_yields :
    Yields (fun r => c.document.syntaxTree.resolve? r.1.pointer = some r.2) (c.resolve p) :=
  located_yields.imp fun _ h => h.2

/-- A node that is edited is no level of a folded name. -/
theorem editable_yields :
    Yields (fun r => locate p c.document.tree c.document.syntaxTree c.vocabulary = .ok r.1 ∧
      r.1.collapsed = false ∧ c.document.syntaxTree.resolve? r.1.pointer = some r.2)
      (c.resolveEditable kind p) := by
  refine Yields.bind located_yields ?_
  rintro ⟨located, n⟩ ⟨hlocated, hn⟩
  dsimp only
  split
  · exact .error
  · next hopen => exact .ok ⟨hlocated, Bool.eq_false_iff.mpr hopen, hn⟩

theorem resolveEditable_yields :
    Yields (fun r => c.document.syntaxTree.resolve? r.1.pointer = some r.2)
      (c.resolveEditable kind p) :=
  editable_yields.imp fun _ h => h.2.2

theorem expectKind_yields {accept : Tree.ElementKind → Bool} :
    Yields (fun _ => True) (expectKind kind e accept) := fun _ _ => trivial

theorem groupFor?_eq_some {t : Syntax.Target} {i : Nat} (h : c.groupFor? t e = some i) :
    ∃ g, t.assignments[i]? = some (.group g) := by
  simp only [groupFor?, Option.bind_eq_bind, Option.bind_eq_some_iff] at h
  obtain ⟨term, _, ⟨vocabulary, rest⟩, _, hfind⟩ := h
  obtain ⟨hi, hgroup, _⟩ := List.findIdx?_eq_some_iff_getElem.mp hfind
  rw [List.getElem?_eq_getElem hi]
  cases ha : t.assignments[i] with
  | single a =>
      rw [ha] at hgroup
      cases hgroup
  | group g => exact ⟨g, rfl⟩

theorem insertAnnotation_yields :
    Yields (Fits c.document.syntaxTree) <| c.insertAnnotation kind p index e := by
  refine Yields.bind expectKind_yields fun _ _ => Yields.bind resolve_yields ?_
  rintro ⟨located, n⟩ hn
  cases n with
  | target t =>
      dsimp only
      split
      · next i hgroup =>
        obtain ⟨g, hg⟩ := groupFor?_eq_some hgroup
        have hchild : (["assignments", toString i], Node.group g) ∈ (Node.target t).children :=
          Node.assignment_mem_children hg
        have hitems := Locate.resolves_child (Locate.resolves_child hn hchild)
          (List.mem_singleton_self (["items"], Node.groupItems g.items))
        rw [Pointer.append, Pointer.append, List.append_assoc] at hitems
        exact .ok (.mk_node hitems rfl rfl)
      · exact .ok (.mk_node hn rfl rfl)
  | _ => exact .error

theorem insertEmbedded_yields :
    Yields (Fits c.document.syntaxTree) (c.insertEmbedded kind p index e) := by
  refine Yields.bind expectKind_yields fun _ _ => Yields.bind resolve_yields ?_
  rintro ⟨located, n⟩ hn
  cases n with
  | record r => exact .ok (.mk_node hn rfl rfl)
  | annotation a =>
      obtain ⟨range, atSign, term, qualifier, colon, value, embedded⟩ := a
      dsimp only
      split
      · next heq => cases heq
      · next _ _ _ _ _ r _ heq =>
        obtain ⟨_, _, _, _, _, rfl, _⟩ := Syntax.Annotation.mk.inj (Node.annotation.inj heq)
        have hvalue : (["value"], Node.record r) ∈ (Node.annotation
            ⟨range, atSign, term, qualifier, colon, some (.record r), embedded⟩).children :=
          List.mem_append_right _ List.mem_cons_self
        exact .ok (.mk_node (Locate.resolves_child hn hvalue) rfl rfl)
      · exact .ok (.mk_node hn rfl rfl)
      · next hother => exact absurd rfl (hother _)
  | _ => exact .error

theorem insertProperty_yields :
    Yields (Fits c.document.syntaxTree) (c.insertProperty kind p index e) := by
  refine Yields.bind expectKind_yields fun _ _ => Yields.bind resolve_yields ?_
  rintro ⟨located, n⟩ hn
  cases n with
  | record r => exact .ok (.mk_node hn rfl rfl)
  | _ => exact .error

/-- A value goes into a collection, or after a name without a value. -/
theorem insertValue_yields {what : Insertable}
    (hwhat : what = .record ∨ what = .collection ∨ what = .primitiveValue) :
    Yields (Fits c.document.syntaxTree) (c.insertValue kind what p index e) := by
  refine Yields.bind expectKind_yields fun _ _ => Yields.bind resolveEditable_yields ?_
  rintro ⟨located, n⟩ hn
  cases n with
  | collection v =>
      refine .ok (.mk_node hn ?_ rfl)
      rcases hwhat with rfl | rfl | rfl <;> rfl
  | annotation a =>
      dsimp only
      split
      · next hvalueless =>
        refine .ok (.mk_node hn ?_ rfl)
        rcases hwhat with rfl | rfl | rfl <;> exact hvalueless
      · exact .error
  | property q =>
      dsimp only
      split
      · next hvalueless =>
        refine .ok (.mk_node hn ?_ rfl)
        rcases hwhat with rfl | rfl | rfl <;> exact hvalueless
      · exact .error
  | _ => exact .error

theorem insertQualifier_yields {value : String} :
    Yields (Fits c.document.syntaxTree) (c.insertQualifier kind p value) := by
  refine Yields.bind resolve_yields ?_
  rintro ⟨located, n⟩ hn
  cases n with
  | annotation a =>
      dsimp only
      split
      · exact .ok (.mk_node hn rfl rfl)
      · exact .error
  | _ => exact .error

theorem deleteTarget_yields : Yields (Fits c.document.syntaxTree) (c.deleteTarget kind p) := by
  refine Yields.bind resolve_yields ?_
  rintro ⟨located, n⟩ hn
  cases n with
  | target t => exact .ok (.mk_node hn rfl rfl)
  | _ => exact .error

theorem annotationKind_suits (a : Syntax.Annotation) :
    (annotationKind a).suits (Node.annotation a) = true := by
  rw [annotationKind]
  split <;> rfl

theorem deleteAnnotation_yields :
    Yields (Fits c.document.syntaxTree) (c.deleteAnnotation kind p) := by
  refine Yields.bind resolve_yields ?_
  rintro ⟨located, n⟩ hn
  cases n with
  | annotation a => exact .ok (.mk_node hn (annotationKind_suits a) rfl)
  | group g => exact .ok (.mk_node hn rfl rfl)
  | _ => exact .error

theorem deleteEmbedded_yields :
    Yields (Fits c.document.syntaxTree) (c.deleteEmbedded kind p) := by
  refine Yields.bind resolve_yields ?_
  rintro ⟨located, n⟩ hn
  cases n with
  | annotation a =>
      dsimp only
      split
      · exact .ok (.mk_node hn rfl rfl)
      · exact .error
  | _ => exact .error

/-- What is deleted as a value is a value, and what is deleted as a property is one. -/
theorem suits_of_isDeleted {what : Deletable} {n : Node} (h : isDeleted what n = true) :
    what.suits n = true := by
  rw [isDeleted.eq_def] at h
  split at h
  · rfl
  · rfl
  · rfl
  · rfl
  · cases h

theorem deleteValue_yields {what : Deletable} :
    Yields (Fits c.document.syntaxTree) (c.deleteValue kind what p) := by
  refine Yields.bind resolve_yields ?_
  rintro ⟨located, n⟩ hn
  dsimp only
  split
  · cases n with
    | annotation a => exact .ok (.mk_node hn (annotationKind_suits a) rfl)
    | property q => exact .ok (.mk_node hn rfl rfl)
    | _ => exact .error
  · split
    · next hdeleted => exact .ok (.mk_node hn (suits_of_isDeleted hdeleted) rfl)
    · exact .error

theorem deleteQualifier_yields :
    Yields (Fits c.document.syntaxTree) (c.deleteQualifier kind p) := by
  refine Yields.bind resolve_yields ?_
  rintro ⟨located, n⟩ hn
  cases n with
  | qualifier q => exact .ok (.mk_node hn rfl rfl)
  | annotation a =>
      dsimp only
      split
      · next hsome =>
        obtain ⟨q, hq⟩ := Option.isSome_iff_exists.mp hsome
        have hchild : (["qualifier"], Node.qualifier q) ∈ (Node.annotation a).children := by
          rw [Node.children, hq]
          exact List.mem_append_left _ List.mem_cons_self
        exact .ok (.mk_node (Locate.resolves_child hn hchild) rfl rfl)
      · exact .error
  | _ => exact .error

theorem suits_of_canReplace {n : Node} (h : canReplace e n = true) :
    (Action.replaceNode e).suits n = true := by
  cases n with
  | record r => rfl
  | collection v => rfl
  | primitive q => rfl
  | annotation a => rfl
  | group g => rfl
  | _ => cases h

theorem replaceNode_yields : Yields (Fits c.document.syntaxTree) (c.replaceNode kind p e) := by
  refine Yields.bind resolveEditable_yields ?_
  rintro ⟨located, n⟩ hn
  exact yields_unless fun hcan => .ok (.mk_node hn (suits_of_canReplace hcan) rfl)

theorem replaceProperty_yields :
    Yields (Fits c.document.syntaxTree) (c.replaceProperty kind p e) := by
  refine Yields.bind expectKind_yields fun _ _ => Yields.bind resolveEditable_yields ?_
  rintro ⟨located, n⟩ hn
  cases n with
  | property q => exact .ok (.mk_node hn rfl rfl)
  | _ => exact .error

theorem replaceText_yields {text : String} :
    Yields (Fits c.document.syntaxTree) (c.replaceText kind p text) := by
  refine Yields.bind resolveEditable_yields ?_
  rintro ⟨located, n⟩ hn
  cases n with
  | primitive q => exact .ok (.mk_node hn rfl rfl)
  | _ => exact .error

theorem updatePrimitive_yields :
    Yields (Fits c.document.syntaxTree) (c.updatePrimitive kind p e) := by
  refine Yields.bind expectKind_yields fun _ _ => Yields.bind resolveEditable_yields ?_
  rintro ⟨located, n⟩ hn
  refine yields_unless fun hfits => .ok (.mk_node hn ?_ rfl)
  cases n <;> exact hfits

theorem setFlags_yields {value : String} :
    Yields (Fits c.document.syntaxTree) (c.setFlags kind p value) := by
  refine Yields.bind resolveEditable_yields ?_
  rintro ⟨located, n⟩ hn
  refine yields_unless fun hfits => .ok (.mk_node hn ?_ rfl)
  cases n <;> exact hfits

/-- What is moved is a member of a collection. -/
theorem moveSource_yields :
    Yields (fun q => q.lastIndex?.isSome = true ∧ c.document.syntaxTree.Resolves q)
      (c.moveSource kind p) := by
  refine Yields.bind resolveEditable_yields ?_
  rintro ⟨located, n⟩ hn
  refine yields_unless fun hitem => .ok ⟨(Bool.and_eq_true_iff.mp hitem).1, ?_⟩
  rw [Syntax.File.Resolves, hn]
  rfl

/-- What holds of every result holds of all of them. -/
theorem mapM_yields {α β : Type} {P : β → Prop} {f : α → Except Error β}
    (h : ∀ a, Yields P (f a)) : ∀ as : List α, Yields (fun bs => ∀ b ∈ bs, P b) (as.mapM f)
  | [] => .ok fun _ hb => absurd hb List.not_mem_nil
  | a :: as => by
      rw [List.mapM_cons]
      refine Yields.bind (h a) fun b hb => Yields.bind (mapM_yields h as) fun bs hbs => ?_
      exact .ok (List.forall_mem_cons.mpr ⟨hb, hbs⟩)

theorem move_yields {sources : List Pointer} :
    Yields (Fits c.document.syntaxTree) (c.move kind p index sources) := by
  refine Yields.bind resolveEditable_yields ?_
  rintro ⟨located, n⟩ hn
  cases n with
  | collection v =>
      refine Yields.bind (mapM_yields (fun _ => moveSource_yields) sources) fun found hfound => ?_
      exact .ok ⟨⟨_, hn, rfl⟩, hfound⟩
  | _ => exact .error

end Conversion.Context

open Locate (Yields)
open Operation (Fits)

theorem Conversion.convert_yields {c : Context} {o : Operation} :
    Yields (Fits c.document.syntaxTree) (convert c o) := by
  obtain ⟨p, action⟩ := o
  have hroot : p.isRoot = true → c.document.syntaxTree.resolve? p =
      some (.file c.document.syntaxTree) := by
    intro hp
    rw [Syntax.File.resolve?, List.isEmpty_iff.mp hp]
    rfl
  cases action with
  | insertTarget index target =>
      rw [convert]
      exact Context.yields_unless fun hp => .ok (.mk_node (hroot hp) rfl rfl)
  | insertReference reference =>
      rw [convert]
      exact Context.yields_unless fun hp => .ok (.mk_node (hroot hp) rfl rfl)
  | insert what index e =>
      cases what with
      | annotation => exact Context.insertAnnotation_yields
      | embeddedAnnotation => exact Context.insertEmbedded_yields
      | recordProperty => exact Context.insertProperty_yields
      | record => exact Context.insertValue_yields (Or.inl rfl)
      | collection => exact Context.insertValue_yields (Or.inr (Or.inl rfl))
      | primitiveValue => exact Context.insertValue_yields (Or.inr (Or.inr rfl))
  | insertQualifier value => exact Context.insertQualifier_yields
  | delete what =>
      cases what with
      | target => exact Context.deleteTarget_yields
      | annotation => exact Context.deleteAnnotation_yields
      | annotationGroup => exact .error
      | annotationGroupItems => exact .error
      | embeddedAnnotation => exact Context.deleteEmbedded_yields
      | record => exact Context.deleteValue_yields
      | collection => exact Context.deleteValue_yields
      | primitiveValue => exact Context.deleteValue_yields
      | recordProperty => exact Context.deleteValue_yields
      | qualifier => exact Context.deleteQualifier_yields
  | replaceNode e => exact Context.replaceNode_yields
  | replaceRecordProperty e => exact Context.replaceProperty_yields
  | replaceTextValue text => exact Context.replaceText_yields
  | updatePrimitiveValue e => exact Context.updatePrimitive_yields
  | setFlags value => exact Context.setFlags_yields
  | moveCollectionValue index sources => exact Context.move_yields
  | convertToCompound unnecessary => exact .error

namespace Writer

theorem add_yields (w : Writer) (o : Operation) :
    Yields (fun w' => w'.document = w.document ∧ w'.config = w.config ∧
      ∃ converted, Conversion.convert ⟨w.document, w.config.aliases⟩ o = .ok converted ∧
        w'.changes = w.changes ++ [converted]) (w.add o) := by
  intro w' hw'
  rw [add] at hw'
  simp only [bind, Except.bind] at hw'
  split at hw'
  · cases hw'
  · split at hw'
    · cases hw'
    · next converted hconvert =>
      obtain rfl := Except.ok.inj hw'
      exact ⟨rfl, rfl, converted, hconvert, rfl⟩

/-- Everything that a writer has accepted fits the tree of its document. -/
theorem fits_of_addAll : ∀ {operations : List Operation} {w w' : Writer},
    w.addAll operations = .ok w' → (∀ o ∈ w.changes, o.Fits w.document.syntaxTree) →
      w'.document = w.document ∧ w'.config = w.config ∧
        ∀ o ∈ w'.changes, o.Fits w.document.syntaxTree
  | [], w, w', h, hfits => by
      obtain rfl := Except.ok.inj h
      exact ⟨rfl, rfl, hfits⟩
  | o :: rest, w, w', h, hfits => by
      rw [addAll] at h
      cases hadd : w.add o with
      | error e =>
          rw [hadd] at h
          cases h
      | ok w₁ =>
          rw [hadd] at h
          obtain ⟨hdocument, hconfig, converted, hconvert, hchanges⟩ := w.add_yields o w₁ hadd
          have hfits₁ : ∀ o ∈ w₁.changes, o.Fits w₁.document.syntaxTree := by
            intro o' ho'
            rw [hchanges, List.mem_append, List.mem_singleton] at ho'
            rw [hdocument]
            rcases ho' with ho' | rfl
            · exact hfits o' ho'
            · exact Conversion.convert_yields _ hconvert
          obtain ⟨hdocument', hconfig', hall⟩ := fits_of_addAll h hfits₁
          rw [hdocument] at hdocument' hall
          exact ⟨hdocument', hconfig'.trans hconfig, hall⟩

end Writer

/-! ## Operations that are carried out -/

namespace Batch

variable {file : Syntax.File}

theorem fits_anchorInEmpty {o : Operation} (h : o.Fits file) : (anchorInEmpty file o).Fits file := by
  rw [anchorInEmpty]
  split
  · obtain ⟨⟨n, hn, hsuits⟩, hsources⟩ := h
    obtain ⟨p, action⟩ := o
    refine ⟨⟨n, hn, ?_⟩, ?_⟩
    · rw [← hsuits]
      cases action <;> cases n <;> rfl
    · cases action <;> exact hsources
  · exact h

theorem fits_replaceNode {place : Pointer} {o : Operation} {e : Tree.Element} (h : o.Fits file)
    (hdeletes : deletesAssignment place o = true) : Fits file ⟨place, .replaceNode e⟩ := by
  obtain ⟨_, rfl⟩ := isDeletion_of_deletesAssignment hdeletes
  obtain ⟨⟨n, hn, hsuits⟩, _⟩ := h
  refine .mk_node hn ?_ rfl
  have hassignment : Deletable.annotation.suits n = true := by
    rw [deletesAssignment] at hdeletes
    split at hdeletes
    · next haction =>
      rw [haction] at hsuits
      exact hsuits
    · next haction =>
      rw [haction] at hsuits
      exact hsuits
    · cases hdeletes
  cases n with
  | annotation a => rfl
  | group g => rfl
  | _ => cases hassignment

theorem fits_of_mem_replacement {all before : List Operation} {o z : Operation}
    (hall : ∀ o ∈ all, o.Fits file) (ho : o.Fits file)
    (hz : z ∈ (replacement all before o).run o) : z.Fits file := by
  rw [replacement.eq_def] at hz
  split at hz
  · split at hz
    · next hany =>
      rw [List.mem_singleton.mp hz]
      obtain ⟨d, hd, hdeletes⟩ := List.any_eq_true.mp (Bool.and_eq_true_iff.mp hany).1
      exact fits_replaceNode (hall d hd) hdeletes
    · rw [List.mem_singleton.mp hz]
      exact ho
  · split at hz
    · exact absurd hz List.not_mem_nil
    · rw [List.mem_singleton.mp hz]
      exact ho

theorem fits_of_mem_folded {all : List Operation} (hall : ∀ o ∈ all, o.Fits file) :
    ∀ {l before : List Operation}, (∀ o ∈ l, o.Fits file) → ∀ z ∈ folded all before l, z.Fits file
  | [], _, _, z, hz => absurd hz List.not_mem_nil
  | o :: l, before, hl, z, hz => by
      obtain ⟨ho, hl⟩ := List.forall_mem_cons.mp hl
      rw [folded_cons] at hz
      rcases List.mem_append.mp hz with hz | hz
      · exact fits_of_mem_replacement hall ho hz
      · exact fits_of_mem_folded hall hl z hz

/-- A mark stands for a target with one bare annotation. -/
theorem fits_of_isBareSingle {p : Pointer} {unnecessary : Bool}
    (h : isBareSingle file p = true) : Fits file ⟨p, .convertToCompound unnecessary⟩ := by
  rw [isBareSingle] at h
  split at h
  · next t ht => exact .mk_node ht h rfl
  · cases h

theorem fits_of_mem_marked {all : List Operation} : ∀ {l : List Operation},
    (∀ o ∈ l, o.Fits file) → ∀ z ∈ marked file all l, z.Fits file
  | [], _, z, hz => absurd hz List.not_mem_nil
  | o :: l, hl, z, hz => by
      obtain ⟨ho, hl⟩ := List.forall_mem_cons.mp hl
      rw [marked_cons] at hz
      rcases List.mem_append.mp hz with hz | hz
      · rw [marking] at hz
        split at hz
        · next hmark =>
          rcases List.mem_cons.mp hz with rfl | hz
          · exact ho
          · rw [List.mem_singleton.mp hz]
            exact fits_of_isBareSingle (Bool.and_eq_true_iff.mp hmark).2
        · rw [List.mem_singleton.mp hz]
          exact ho
      · exact fits_of_mem_marked hl z hz

theorem suits_of_emptiedKind? {n : Node} {kind : Deletable} (h : emptiedKind? n = some kind) :
    kind.suits n = true := by
  cases n with
  | annotation a =>
      rw [← Option.some.inj h]
      split <;> rfl
  | target t => rw [← Option.some.inj h]; rfl
  | groupItems i => rw [← Option.some.inj h]; rfl
  | group g => rw [← Option.some.inj h]; rfl
  | record r => rw [← Option.some.inj h]; rfl
  | property q => rw [← Option.some.inj h]; rfl
  | _ => cases h

theorem fits_of_emptied? {container : Pointer} {l : List Operation} {o : Operation}
    (h : emptied? file container l = some o) : o.Fits file := by
  simp only [emptied?, Option.bind_eq_bind, Option.bind_eq_some_iff] at h
  obtain ⟨n, hn, h⟩ := h
  split at h
  · cases h
  · obtain ⟨kind, hkind, heq⟩ := Option.bind_eq_some_iff.mp h
    rw [← Option.some.inj heq]
    exact .mk_node hn (suits_of_emptiedKind? hkind) rfl

theorem fits_of_mem_bubbleContainer {l : List Operation} (hl : ∀ o ∈ l, o.Fits file)
    (container : Pointer) : ∀ z ∈ bubbleContainer file l container, z.Fits file := by
  intro z hz
  rw [bubbleContainer] at hz
  split at hz
  · next deletion hdeletion =>
    rcases List.mem_append.mp hz with hz | hz
    · exact hl z (List.mem_filter.mp hz).1
    · rw [List.mem_singleton.mp hz]
      exact fits_of_emptied? hdeletion
  · exact hl z hz

theorem fits_of_mem_bubbleLevel {l : List Operation} (hl : ∀ o ∈ l, o.Fits file) (depth : Nat) :
    ∀ z ∈ bubbleLevel file l depth, z.Fits file := by
  rw [bubbleLevel]
  generalize containersAt file l depth = containers
  induction containers generalizing l with
  | nil => exact hl
  | cons container rest ih => exact ih (fits_of_mem_bubbleContainer hl container)

theorem fits_of_mem_bubbleBelow : ∀ (depth : Nat) {l : List Operation},
    (∀ o ∈ l, o.Fits file) → ∀ z ∈ bubbleBelow file depth l, z.Fits file
  | 0, _, hl => hl
  | depth + 1, _, hl => fits_of_mem_bubbleBelow depth (fits_of_mem_bubbleLevel hl depth)

theorem mem_of_mem_order {l : List Operation} {o : Operation} (h : o ∈ order l) : o ∈ l := by
  rcases List.mem_append.mp h with h | h
  · exact (List.mem_filter.mp h).1
  · exact (List.mem_filter.mp ((List.mergeSort_perm _ _).mem_iff.mp h)).1

/-- What is carried out for operations that fit the tree fits it as well. -/
theorem fits_of_mem_reduce {l : List Operation} (hl : ∀ o ∈ l, o.Fits file) :
    ∀ o ∈ reduce file l, o.Fits file := by
  have hanchored : ∀ o ∈ l.map (anchorInEmpty file), o.Fits file := by
    intro o ho
    obtain ⟨a, ha, rfl⟩ := List.mem_map.mp ho
    exact fits_anchorInEmpty (hl a ha)
  have hshadowed : ∀ o ∈ removeShadowed (l.map (anchorInEmpty file)), o.Fits file :=
    fun o ho => hanchored o (mem_of_mem_removeShadowed ho)
  intro o ho
  refine fits_of_mem_bubbleBelow _ ?_ o (mem_of_mem_removeShadowed (mem_of_mem_order ho))
  exact fits_of_mem_marked (fits_of_mem_folded hshadowed hshadowed)

end Batch

end AnnotationEdit

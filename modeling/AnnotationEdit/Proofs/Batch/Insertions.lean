import AnnotationEdit.Proofs.Batch.Fitting

/-!
# Batches of insertions

An insertion that is accepted is turned into one (`Conversion.convert_inserts`). A batch that only
inserts is carried out as it stands: nothing in it is shadowed, folded or bubbles up, and only the
last annotation for a target with a single bare one is followed by a mark
(`Batch.reduce_of_isInsert`). So of two insertions at different pointers each is carried out as it
would be alone, one after the other (`Batch.reduce_pair`).
-/

namespace AnnotationEdit

/-! ## Accepted insertions -/

namespace Operation

def insertsStatement (o : Operation) : Bool :=
  match o.action with
  | .insertTarget .. | .insertReference _ => true
  | _ => false

/-- An insertion; targets and references are inserted at the root. -/
structure Inserts (o : Operation) : Prop where
  isInsert : o.isInsert = true
  root : o.insertsStatement = true → o.pointer = .root

theorem inserts_element (p : Pointer) (what : Insertable) (index : Option Nat) (e : Tree.Element) :
    Inserts ⟨p, .insert what index e⟩ := ⟨rfl, Bool.noConfusion⟩

end Operation

namespace Conversion

open Locate (Yields)
open Operation (Inserts inserts_element)

namespace Context

variable {c : Context} {kind : String} {p : Pointer} {index : Option Nat} {e : Tree.Element}

theorem insertAnnotation_inserts : Yields Inserts <| c.insertAnnotation kind p index e := by
  refine Yields.bind expectKind_yields fun _ _ => Yields.bind resolve_yields ?_
  rintro ⟨located, n⟩ _
  cases n with
  | target t =>
      dsimp only
      split
      · exact .ok (inserts_element _ _ _ _)
      · exact .ok (inserts_element _ _ _ _)
  | _ => exact .error

theorem insertEmbedded_inserts : Yields Inserts (c.insertEmbedded kind p index e) := by
  refine Yields.bind expectKind_yields fun _ _ => Yields.bind resolve_yields ?_
  rintro ⟨located, n⟩ _
  dsimp only
  split
  · exact .ok (inserts_element _ _ _ _)
  · exact .ok (inserts_element _ _ _ _)
  · exact .ok (inserts_element _ _ _ _)
  · exact .error

theorem insertProperty_inserts : Yields Inserts (c.insertProperty kind p index e) := by
  refine Yields.bind expectKind_yields fun _ _ => Yields.bind resolve_yields ?_
  rintro ⟨located, n⟩ _
  cases n with
  | record r => exact .ok (inserts_element _ _ _ _)
  | _ => exact .error

theorem insertValue_inserts {what : Insertable} :
    Yields Inserts (c.insertValue kind what p index e) := by
  refine Yields.bind expectKind_yields fun _ _ => Yields.bind resolveEditable_yields ?_
  rintro ⟨located, n⟩ _
  cases n with
  | collection v => exact .ok (inserts_element _ _ _ _)
  | annotation a => exact yields_unless fun _ => .ok (inserts_element _ _ _ _)
  | property q => exact yields_unless fun _ => .ok (inserts_element _ _ _ _)
  | _ => exact .error

theorem insertQualifier_inserts {value : String} :
    Yields Inserts (c.insertQualifier kind p value) := by
  refine Yields.bind resolve_yields ?_
  rintro ⟨located, n⟩ _
  cases n with
  | annotation a => exact yields_unless fun _ => .ok ⟨rfl, Bool.noConfusion⟩
  | _ => exact .error

end Context

/-- An insertion that is accepted is turned into one. -/
theorem convert_inserts {c : Context} {o : Operation} (ho : o.isInsert = true) :
    Yields Inserts (convert c o) := by
  obtain ⟨p, action⟩ := o
  have hroot : p.isRoot = true → p = .root := by
    intro hp
    cases p
    exact congrArg Pointer.mk (List.isEmpty_iff.mp hp)
  cases action with
  | insertTarget index target =>
      rw [convert]
      exact Context.yields_unless fun hp => .ok ⟨rfl, fun _ => hroot hp⟩
  | insertReference reference =>
      rw [convert]
      exact Context.yields_unless fun hp => .ok ⟨rfl, fun _ => hroot hp⟩
  | insert what index e =>
      cases what with
      | annotation => exact Context.insertAnnotation_inserts
      | embeddedAnnotation => exact Context.insertEmbedded_inserts
      | recordProperty => exact Context.insertProperty_inserts
      | record => exact Context.insertValue_inserts
      | collection => exact Context.insertValue_inserts
      | primitiveValue => exact Context.insertValue_inserts
  | insertQualifier value => exact Context.insertQualifier_inserts
  | _ => cases ho

end Conversion

/-! ## Operations that take nothing away -/

theorem Operation.isDestructive_of_isInsert {o : Operation} (h : o.isInsert = true) :
    o.isDestructive = false := by
  obtain ⟨p, action⟩ := o
  cases action with
  | insertTarget | insert | insertQualifier | insertReference => rfl
  | _ => cases h

theorem Operation.isDeletion_of_not_isDestructive {o : Operation} (h : o.isDestructive = false) :
    o.isDeletion = false := by
  cases hdeletion : o.isDeletion
  · rfl
  · rw [isDestructive_of_isDeletion hdeletion] at h
    cases h

theorem Operation.isDeletion_of_isInsert {o : Operation} (h : o.isInsert = true) :
    o.isDeletion = false :=
  Operation.isDeletion_of_not_isDestructive (Operation.isDestructive_of_isInsert h)

namespace Batch

variable {file : Syntax.File} {l : List Operation} {a b o : Operation}

/-! ## Nothing is overwritten -/

theorem survivors_eq_self (h : ∀ o ∈ l, o.isDestructive = false) : survivors l = l := by
  induction l with
  | nil => rfl
  | cons o l ih =>
      obtain ⟨ho, hl⟩ := List.forall_mem_cons.mp h
      rw [survivors, overridden, ho, Bool.false_and, if_neg Bool.false_ne_true, ih hl]

/-- Where nothing is overwritten, nothing is shadowed. -/
theorem removeShadowed_eq_self (h : ∀ o ∈ l, o.isDestructive = false) : removeShadowed l = l := by
  have hremoved : removedPointers l = [] := by
    rw [removedPointers_eq, survivors_eq_self h, List.map_eq_nil_iff, List.filter_eq_nil_iff]
    intro o ho hremoves
    have hdestructive := Operation.isDestructive_of_removesSubtree hremoves
    rw [h o ho] at hdestructive
    cases hdestructive
  rw [removeShadowed_eq, survivors_eq_self h, hremoved, List.filter_eq_self]
  intro o _
  rw [isShadowed, List.any_nil, List.any_nil, ite_self]
  rfl

theorem not_deletesAssignment (h : o.isDeletion = false) (p : Pointer) :
    deletesAssignment p o = false := by
  cases hdeletes : deletesAssignment p o
  · rfl
  · have hdeletion := (isDeletion_of_deletesAssignment hdeletes).1
    rw [h] at hdeletion
    cases hdeletion

/-- Without deletions nothing is folded. -/
theorem folded_eq_self {all : List Operation} (hall : ∀ o ∈ all, o.isDeletion = false)
    {l before : List Operation} (hl : ∀ o ∈ l, o.isDeletion = false) :
    folded all before l = l := by
  have hnone : ∀ p, all.any (deletesAssignment p) = false := by
    intro p
    refine List.any_eq_false.mpr fun other hother => ?_
    rw [not_deletesAssignment (hall other hother)]
    exact Bool.false_ne_true
  refine folded_of_pick fun o ho before => ?_
  rw [replacement.eq_def]
  split
  · rw [hnone, Bool.false_and, if_neg Bool.false_ne_true]
  · rw [not_deletesAssignment (hl o ho), Bool.false_and, Bool.false_and,
      if_neg Bool.false_ne_true]

theorem emptiedBy?_of_not_isDeletion (h : o.isDeletion = false) : emptiedBy? file o = none := by
  obtain ⟨p, action⟩ := o
  cases action with
  | delete what => cases h
  | _ => rfl

/-- Without deletions no container is emptied. -/
theorem bubble_of_not_isDeletion (h : ∀ o ∈ l, o.isDeletion = false) : bubble file l = l :=
  bubble_of_emptied? fun o ho p hp => by
    rw [emptiedBy?_of_not_isDeletion (h o ho)] at hp
    cases hp

theorem order_eq_self (h : ∀ o ∈ l, o.isDeletion = false) : order l = l := by
  have hkept : l.filter (!·.isDeletion) = l := by
    refine List.filter_eq_self.mpr fun o ho => ?_
    rw [h o ho]
    rfl
  have hdeleted : l.filter (·.isDeletion) = [] := by
    refine List.filter_eq_nil_iff.mpr fun o ho => ?_
    rw [h o ho]
    exact Bool.false_ne_true
  rw [order, hkept, hdeleted, List.mergeSort_nil, List.append_nil]

/-! ## What is carried out -/

/-- An operation alone shadows nothing. -/
theorem removeShadowed_singleton (o : Operation) : removeShadowed [o] = [o] := by
  have hsurvives : survivors [o] = [o] := by
    rw [survivors, overridden, List.any_nil, Bool.and_false, if_neg Bool.false_ne_true, survivors]
  have hkept : isShadowed (removedPointers [o]) o = false := by
    rw [removedPointers_eq, hsurvives]
    cases hremoves : o.removesSubtree with
    | false =>
        rw [List.filter_cons_of_neg (by rw [hremoves]; exact Bool.false_ne_true), isShadowed]
        exact ite_self _
    | true =>
        rw [List.filter_cons_of_pos hremoves, isShadowed,
          if_pos (Operation.isDestructive_of_removesSubtree hremoves)]
        simp [Pointer.isAncestorOf]
  rw [removeShadowed_eq, hsurvives]
  exact List.filter_cons_of_pos (by rw [hkept]; rfl)

/-- An operation alone that deletes nothing and inserts no annotation beside a bare one is carried
out as it is. -/
theorem reduce_singleton (hkeeps : o.isDeletion = false) (hanchored : anchorInEmpty file o = o)
    (hmark : (insertsAnnotationAt o.pointer o && isBareSingle file o.pointer) = false) :
    reduce file [o] = [o] := by
  have hall : ∀ b ∈ [o], b.isDeletion = false := List.forall_mem_singleton.mpr hkeeps
  have hfolded : Command.runAll [o] (replacements [o]) = [o] := folded_eq_self hall hall
  have hmarked : Command.runAll [o] (compounds file [o]) = [o] := by
    show (marking file [o] [] o).run o ++ [] = [o]
    rw [marking, List.any_nil, Bool.not_false, Bool.and_true, hmark]
    rfl
  simp only [reduce, List.map_cons, List.map_nil, hanchored, removeShadowed_singleton, hfolded,
    hmarked]
  rw [bubble_of_not_isDeletion hall, removeShadowed_singleton, order_eq_self hall]

theorem isInsert_anchorInEmpty (file : Syntax.File) (o : Operation) :
    (anchorInEmpty file o).isInsert = o.isInsert := by
  rw [anchorInEmpty]
  split
  · obtain ⟨p, action⟩ := o
    cases action <;> rfl
  · rfl

theorem anchorInEmpty_of_target {t : Syntax.Target}
    (ht : file.resolve? o.pointer = some (.target t)) (hne : t.assignments ≠ []) :
    anchorInEmpty file o = o := by
  have hlength : (Syntax.Node.target t).listLength? = some t.assignments.length := by
    rw [Syntax.Node.listLength?, Syntax.Node.memberRanges?, Option.map_some, List.length_map]
  have hmembers : (some t.assignments.length == some 0) = false := by
    rw [beq_eq_false_iff_ne]
    exact fun hzero => hne (List.length_eq_zero_iff.mp (Option.some.inj hzero))
  rw [anchorInEmpty, ht, Option.bind_some, hlength, hmembers, Bool.and_false]
  rfl

theorem not_isDestructive_of_mem_marked {all : List Operation} : ∀ {l : List Operation},
    (∀ o ∈ l, o.isDestructive = false) → ∀ z ∈ marked file all l, z.isDestructive = false
  | [], _, z, hz => absurd hz List.not_mem_nil
  | o :: l, hl, z, hz => by
      obtain ⟨ho, hl⟩ := List.forall_mem_cons.mp hl
      rw [marked_cons] at hz
      rcases List.mem_append.mp hz with hz | hz
      · rcases mem_run_marking hz with rfl | ⟨_, hz⟩
        · exact ho
        · exact hz
      · exact not_isDestructive_of_mem_marked hl z hz

/-- A batch that only inserts is carried out as it stands, with marks. -/
theorem reduce_of_isInsert (h : ∀ o ∈ l, o.isInsert = true) :
    reduce file l = marked file (l.map (anchorInEmpty file)) (l.map (anchorInEmpty file)) := by
  have hanchored : ∀ o ∈ l.map (anchorInEmpty file), o.isDestructive = false := by
    intro o ho
    obtain ⟨a, ha, rfl⟩ := List.mem_map.mp ho
    rw [isDestructive_anchorInEmpty]
    exact Operation.isDestructive_of_isInsert (h a ha)
  have hkeeps : ∀ {l : List Operation}, (∀ o ∈ l, o.isDestructive = false) →
      ∀ o ∈ l, o.isDeletion = false :=
    fun h o ho => Operation.isDeletion_of_not_isDestructive (h o ho)
  have hfolded : Command.runAll (l.map (anchorInEmpty file))
      (replacements (l.map (anchorInEmpty file))) = l.map (anchorInEmpty file) :=
    folded_eq_self (hkeeps hanchored) (hkeeps hanchored)
  have hmarked : ∀ o ∈ marked file (l.map (anchorInEmpty file)) (l.map (anchorInEmpty file)),
      o.isDestructive = false := not_isDestructive_of_mem_marked hanchored
  simp only [reduce, removeShadowed_eq_self hanchored, hfolded]
  show order (removeShadowed (bubble file (marked file _ _))) = _
  rw [bubble_of_not_isDeletion (hkeeps hmarked), removeShadowed_eq_self hmarked,
    order_eq_self (hkeeps hmarked)]

/-- What is carried out for an insertion alone: itself, with a mark after an annotation beside a
single bare one. -/
def carriedOut (file : Syntax.File) (o : Operation) : List Operation :=
  let o := anchorInEmpty file o
  if insertsAnnotationAt o.pointer o && isBareSingle file o.pointer then
    [o, ⟨o.pointer, .convertToCompound false⟩]
  else [o]

theorem mem_marked {all : List Operation} : ∀ {l : List Operation} {z : Operation},
    z ∈ marked file all l →
      ∃ o ∈ l, z = o ∨ ∃ unnecessary, z = ⟨o.pointer, .convertToCompound unnecessary⟩
  | [], _, hz => absurd hz List.not_mem_nil
  | o :: l, z, hz => by
      rw [marked_cons] at hz
      rcases List.mem_append.mp hz with hz | hz
      · refine ⟨o, List.mem_cons_self, ?_⟩
        unfold marking at hz
        split at hz
        · rcases List.mem_cons.mp hz with rfl | hz
          · exact Or.inl rfl
          · exact Or.inr ⟨_, List.mem_singleton.mp hz⟩
        · exact Or.inl (List.mem_singleton.mp hz)
      · obtain ⟨a, ha, hza⟩ := mem_marked hz
        exact ⟨a, List.mem_cons_of_mem o ha, hza⟩

/-- What is carried out for insertions is one of them in its place, or a mark for its target. -/
theorem mem_reduce_of_isInsert (h : ∀ o ∈ l, o.isInsert = true) {z : Operation}
    (hz : z ∈ reduce file l) : ∃ o ∈ l, z = anchorInEmpty file o ∨
      ∃ unnecessary, z = ⟨o.pointer, .convertToCompound unnecessary⟩ := by
  rw [reduce_of_isInsert h] at hz
  obtain ⟨a, ha, hza⟩ := mem_marked hz
  obtain ⟨o, ho, rfl⟩ := List.mem_map.mp ha
  rw [pointer_anchorInEmpty] at hza
  exact ⟨o, ho, hza⟩

theorem insertsAnnotationAt_of_ne {p : Pointer} (h : p ≠ o.pointer) :
    insertsAnnotationAt p o = false := by
  rw [insertsAnnotationAt]
  split
  · exact beq_eq_false_iff_ne.mpr h.symm
  · rfl

theorem run_marking {all rest : List Operation} (hall : ∀ o ∈ all, o.isDestructive = false)
    (hrest : ∀ b ∈ rest, o.pointer ≠ b.pointer) :
    (marking file all rest (anchorInEmpty file o)).run (anchorInEmpty file o) =
      carriedOut file o := by
  have hother : rest.any (insertsAnnotationAt (anchorInEmpty file o).pointer) = false := by
    refine List.any_eq_false.mpr fun b hb => ?_
    rw [pointer_anchorInEmpty, insertsAnnotationAt_of_ne (hrest b hb)]
    exact Bool.false_ne_true
  have hkept : all.any (deletesAssignment
      (assignmentPointer (anchorInEmpty file o).pointer 0)) = false := by
    refine List.any_eq_false.mpr fun b hb => ?_
    rw [not_deletesAssignment (Operation.isDeletion_of_not_isDestructive (hall b hb))]
    exact Bool.false_ne_true
  rw [marking, hother, hkept, Bool.not_false, Bool.and_true, carriedOut]
  split
  · rfl
  · rfl

/-- Of two insertions at different pointers each is carried out as if it were alone. -/
theorem reduce_pair (ha : a.isInsert = true) (hb : b.isInsert = true)
    (hne : a.pointer ≠ b.pointer) :
    reduce file [a, b] = carriedOut file a ++ carriedOut file b := by
  have hinserts : ∀ o ∈ [a, b], o.isInsert = true :=
    List.forall_mem_cons.mpr ⟨ha, List.forall_mem_singleton.mpr hb⟩
  have hall : ∀ o ∈ [anchorInEmpty file a, anchorInEmpty file b], o.isDestructive = false := by
    refine List.forall_mem_cons.mpr ⟨?_, List.forall_mem_singleton.mpr ?_⟩
    · rw [isDestructive_anchorInEmpty, Operation.isDestructive_of_isInsert ha]
    · rw [isDestructive_anchorInEmpty, Operation.isDestructive_of_isInsert hb]
  rw [reduce_of_isInsert hinserts, List.map_cons, List.map_singleton, marked_cons, marked_cons,
    run_marking hall, run_marking hall fun _ h => absurd h List.not_mem_nil]
  · exact congrArg (carriedOut file a ++ ·) (List.append_nil _)
  · intro c hc
    rw [List.mem_singleton.mp hc, pointer_anchorInEmpty]
    exact hne

end Batch

end AnnotationEdit

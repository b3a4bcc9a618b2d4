import AnnotationEdit.Proofs.Batch.Emptying

/-!
# Filling the slot of an annotation without a value

An annotation written without a value has a slot for one, and a value that is set there goes to the
pointer of the annotation itself. Whether an operation overwrites what stands at its pointer is told
by its kind alone, so setting the value shadows whatever else is done to the annotation: a qualifier
that it gets or loses and an annotation that is put on it are carried out if and only if the slot is
left empty (`mem_reduce_iff_not_filled`), in whatever order they come.
-/

namespace AnnotationEdit

open Syntax (Node)

namespace Operation

/-- Sets the value of the annotation at `p`, which has none. -/
inductive Fills (p : Pointer) : Operation → Prop
  | update (e : Tree.Element) : Fills p ⟨p, .updatePrimitiveValue e⟩
  | flags (value : String) : Fills p ⟨p, .setFlags value⟩

/-- Works on the annotation at `p` beside its value. -/
inductive Concerns (p : Pointer) : Operation → Prop
  | insertQualifier (value : String) : Concerns p ⟨p, .insertQualifier value⟩
  | deleteQualifier : Concerns p ⟨p.child "qualifier", .delete .qualifier⟩
  | insertEmbedded (index : Option Nat) (e : Tree.Element) :
      Concerns p ⟨p, .insert Insertable.embeddedAnnotation index e⟩

theorem Fills.removesSubtree {p : Pointer} {o : Operation} (h : o.Fills p) :
    o.removesSubtree = true := by
  cases h <;> rfl

theorem Fills.pointer_eq {p : Pointer} {o : Operation} (h : o.Fills p) : o.pointer = p := by
  cases h <;> rfl

theorem Concerns.deletesNode_eq {p : Pointer} {o : Operation} (h : o.Concerns p) :
    o.deletesNode = false := by
  cases h <;> rfl

/-- It is neither a replacement nor a mark. -/
theorem Concerns.action_ne {p : Pointer} {o : Operation} (h : o.Concerns p) :
    (∀ e, o.action ≠ .replaceNode e) ∧ ∀ unnecessary, o.action ≠ .convertToCompound unnecessary := by
  cases h <;> exact ⟨fun _ => Action.noConfusion, fun _ => Action.noConfusion⟩

end Operation

namespace Batch

variable {file : Syntax.File} {l : List Operation} {o : Operation} {p : Pointer}

/-- What is done to an annotation is shadowed by what removes it or something above it. -/
theorem isShadowed_of_concerns (h : o.Concerns p) (q : Pointer) :
    isShadowed [q] o = q.isPrefixOf p := by
  cases h with
  | insertQualifier value =>
      rw [isShadowed_of_not_isDestructive rfl]
      exact Bool.or_false _
  | insertEmbedded index e =>
      rw [isShadowed_of_not_isDestructive rfl]
      exact Bool.or_false _
  | deleteQualifier =>
      rw [isShadowed_of_isDestructive rfl]
      exact Bool.eq_iff_iff.mpr Pointer.isAncestorOf_child

/-- An annotation is no list, so nothing is anchored in it. -/
theorem anchorInEmpty_of_concerns {a : Syntax.Annotation}
    (hp : file.resolve? p = some (Node.annotation a)) (h : o.Concerns p) :
    anchorInEmpty file o = o := by
  cases h with
  | insertQualifier value => rfl
  | deleteQualifier => rfl
  | insertEmbedded index e =>
      rw [anchorInEmpty, if_neg]
      rw [Bool.and_eq_true, beq_iff_eq, hp]
      rintro ⟨_, hnone⟩
      cases hnone

/-- Nothing that is done to an annotation is made up on the way. -/
theorem mem_unshadowed_of_mem_reduce (hl : ∀ o ∈ l, o.Placed file) (hconcerns : o.Concerns p)
    (h : o ∈ reduce file l) : o ∈ unshadowed file l := by
  rw [reduce_eq, mem_order] at h
  have hbubble : o ∈ bubble file (prepared file l) := mem_of_mem_removeShadowed h
  have hprepared :=
    ((ready_prepared hl).progress_bubble.others o hconcerns.deletesNode_eq).mp hbubble
  rcases mem_marked_cases hprepared with hfolded | ⟨_, _, _, _, rfl⟩
  · rcases mem_folded_cases hfolded with hmem | ⟨_, _, _, rfl⟩
    · exact hmem
    · exact absurd rfl (hconcerns.action_ne.1 _)
  · exact absurd rfl (hconcerns.action_ne.2 _)

/-- Beside deletions of a qualifier nothing destructive happens at its pointer. -/
theorem action_eq_of_qualifier {q : Syntax.Identifier} {a : Operation} (ha : a.Fits file)
    (hq : file.resolve? a.pointer = some (.qualifier q)) (hdestructive : a.isDestructive = true) :
    a.action = .delete .qualifier := by
  obtain ⟨⟨n, hn, hsuits⟩, _⟩ := ha
  obtain rfl := Option.some.inj (hn.symm.trans hq)
  obtain ⟨pointer, action⟩ := a
  cases action with
  | delete what => cases what <;> first | rfl | cases hsuits
  | replaceNode e | updatePrimitiveValue e | setFlags value => cases hsuits
  | replaceRecordProperty e | replaceTextValue text => cases hsuits
  | _ => cases hdestructive

/-- What is done to an annotation is overridden by nothing but itself. -/
theorem mem_survivors_of_concerns {a : Syntax.Annotation} (hl : ∀ o ∈ l, o.Fits file)
    (hp : file.resolve? p = some (Node.annotation a)) (hconcerns : o.Concerns p) (ho : o ∈ l) :
    o ∈ survivors (l.map (anchorInEmpty file)) := by
  have hanchored : o ∈ l.map (anchorInEmpty file) :=
    List.mem_map.mpr ⟨o, ho, anchorInEmpty_of_concerns hp hconcerns⟩
  obtain ⟨b, hb, rfl | ⟨hdestructive, hdestructive', hpointer⟩⟩ := exists_survivor hanchored
  · exact hb
  · cases hconcerns with
    | insertQualifier value => cases hdestructive
    | insertEmbedded index e => cases hdestructive
    | deleteQualifier =>
        have hfits := hl b (mem_of_mem_anchored hdestructive' (mem_of_mem_survivors hb))
        obtain ⟨q, hq⟩ := (hl _ ho).placed.exists_qualifier rfl
        rw [hpointer] at hq
        have haction := action_eq_of_qualifier hfits hq hdestructive'
        obtain ⟨pointer, action⟩ := b
        obtain rfl : p.child "qualifier" = pointer := hpointer
        obtain rfl : action = .delete .qualifier := haction
        exact hb

/-- What is done to an annotation is shadowed if the slot of the annotation is filled. -/
theorem not_mem_unshadowed_of_fills {a : Syntax.Annotation} (hl : ∀ o ∈ l, o.Placed file)
    (hp : file.resolve? p = some (Node.annotation a)) (hconcerns : o.Concerns p) {f : Operation}
    (hf : f ∈ l) (hfills : f.Fills p) : o ∉ unshadowed file l := by
  have hdestructive := Operation.isDestructive_of_removesSubtree hfills.removesSubtree
  have hanchored : f ∈ l.map (anchorInEmpty file) :=
    List.mem_map.mpr ⟨f, hf, anchorInEmpty_of_isDestructive hdestructive⟩
  obtain ⟨b, hb, hpointer, hremoves⟩ : ∃ b ∈ survivors (l.map (anchorInEmpty file)),
      b.pointer = p ∧ b.removesSubtree = true := by
    obtain ⟨b, hb, rfl | ⟨_, hdestructive', hpointer⟩⟩ := exists_survivor hanchored
    · exact ⟨b, hb, hfills.pointer_eq, hfills.removesSubtree⟩
    · rw [hfills.pointer_eq] at hpointer
      refine ⟨b, hb, hpointer.symm, ?_⟩
      have hplaced := hl b (mem_of_mem_anchored hdestructive' (mem_of_mem_survivors hb))
      rw [Operation.removesSubtree]
      split
      · next haction =>
        obtain ⟨q, hq⟩ := hplaced.exists_qualifier haction
        rw [← hpointer, hp] at hq
        cases hq
      · exact hdestructive'
  rw [unshadowed, removeShadowed_eq, List.mem_filter, Bool.not_eq_true', Bool.eq_false_iff]
  rintro ⟨_, hkept⟩
  refine hkept (isShadowed_iff.mpr ⟨p, ?_, ?_⟩)
  · rw [removedPointers_eq, ← hpointer]
    exact List.mem_map_of_mem (List.mem_filter.mpr ⟨hb, hremoves⟩)
  · rw [isShadowed_of_concerns hconcerns]
    exact Pointer.isPrefixOf_refl p

/-- What is done to an annotation that stays is not shadowed. -/
theorem mem_unshadowed_of_concerns {a : Syntax.Annotation} (hl : ∀ o ∈ l, o.Fits file)
    (hp : file.resolve? p = some (Node.annotation a)) (hconcerns : o.Concerns p) (ho : o ∈ l)
    (hkept : ∀ r ∈ l, r.removesSubtree = true → r.pointer.isPrefixOf p = false) :
    o ∈ unshadowed file l := by
  rw [unshadowed, removeShadowed_eq, List.mem_filter, Bool.not_eq_true', Bool.eq_false_iff]
  refine ⟨mem_survivors_of_concerns hl hp hconcerns ho, fun hshadowed => ?_⟩
  obtain ⟨q, hq, hshadowed⟩ := isShadowed_iff.mp hshadowed
  rw [removedPointers_eq] at hq
  obtain ⟨r, hr, rfl⟩ := List.mem_map.mp hq
  obtain ⟨hr, hremoves⟩ := List.mem_filter.mp hr
  have hmem := mem_of_mem_anchored (Operation.isDestructive_of_removesSubtree hremoves)
    (mem_of_mem_survivors hr)
  rw [isShadowed_of_concerns hconcerns, hkept r hmem hremoves] at hshadowed
  cases hshadowed

/-- What is done to an annotation without a value that stays is carried out. -/
theorem mem_reduce_of_concerns {a : Syntax.Annotation} (hl : ∀ o ∈ l, o.Fits file)
    (hp : file.resolve? p = some (Node.annotation a)) (hempty : a.value = none)
    (hconcerns : o.Concerns p) (ho : o ∈ l)
    (hkept : ∀ r ∈ l, r.removesSubtree = true → r.pointer.isPrefixOf p = false) :
    o ∈ reduce file l := by
  have hbatch := ready_prepared fun o ho => (hl o ho).placed
  have hprogress := hbatch.progress_bubble
  have hunshadowed := mem_unshadowed_of_concerns hl hp hconcerns ho hkept
  have hprepared : o ∈ prepared file l := by
    cases hconcerns with
    | insertQualifier value => exact mem_prepared_of_not_assignment rfl rfl hunshadowed
    | deleteQualifier => exact mem_prepared_of_not_assignment rfl rfl hunshadowed
    | insertEmbedded index e => exact mem_prepared_of_not_assignment rfl rfl hunshadowed
  rw [reduce_eq, mem_order, mem_removeShadowed_bubble hbatch
    fun r hr hremoves => hbatch.clear r hr hremoves o hprepared]
  refine ⟨(hprogress.others o hconcerns.deletesNode_eq).mpr hprepared, fun d hd hdeletes => ?_⟩
  rw [isShadowed_of_concerns hconcerns]
  have hheld : (Node.annotation a).held = [] := by
    rw [Node.held, hempty]
    rfl
  refine (hprogress.dead d hd hdeletes).not_above hp hheld (fun _ => Node.noConfusion) ?_
  intro r hr hdeletes'
  exact hkept r (mem_of_mem_prepared (Operation.isDeletion_of_deletesNode hdeletes') hr)
    (Operation.removesSubtree_of_deletesNode hdeletes')

end Batch

/-- Of a batch that leaves an annotation without a value where it is, what it does to the annotation
beside its value is carried out if and only if the batch does not set the value. -/
theorem Writer.mem_reduce_iff_not_filled {d : Document} {config : Configuration}
    {operations : List Operation} {w : Writer} {p : Pointer} {a : Syntax.Annotation}
    (hadd : (Writer.ofDocument d config).addAll operations = .ok w)
    (hp : d.syntaxTree.resolve? p = some (Node.annotation a)) (hempty : a.value = none)
    (hkept : ∀ o ∈ w.changes, o.removesSubtree = true → o.pointer.isPrefixOf p = true →
      o.Fills p) :
    ∀ o ∈ w.changes, o.Concerns p →
      (o ∈ Batch.reduce d.syntaxTree w.changes ↔ ∀ f ∈ w.changes, ¬ f.Fills p) := by
  obtain ⟨_, _, hfits⟩ := Writer.fits_of_addAll hadd fun _ ho => absurd ho List.not_mem_nil
  have hplaced := fun o ho => (hfits o ho).placed
  intro o ho hconcerns
  constructor
  · intro hmem f hf hfills
    exact Batch.not_mem_unshadowed_of_fills hplaced hp hconcerns hf hfills
      (Batch.mem_unshadowed_of_mem_reduce hplaced hconcerns hmem)
  · intro hunfilled
    refine Batch.mem_reduce_of_concerns hfits hp hempty hconcerns ho fun r hr hremoves => ?_
    rw [Bool.eq_false_iff]
    exact fun hunder => hunfilled r hr (hkept r hr hremoves hunder)

/-- The only assignment of a text. -/
def soleAssignment : Pointer := ⟨["targets", "0", "assignments", "0"]⟩

/-- The only annotation gets a qualifier and then a value. -/
def qualifierThenFlags : List Operation :=
  [⟨⟨["targets", "0", "terms", "0"]⟩, .insertQualifier "q"⟩,
    ⟨⟨["targets", "0", "terms", "0"]⟩, .setFlags "f"⟩]

def isEmptySlot (d : Document) : Bool :=
  match d.syntaxTree.resolve? soleAssignment with
  | some (Node.annotation a) => a.value.isNone
  | _ => false

def setsQualifierThenFlags : List Operation → Bool
  | [⟨p, .insertQualifier q⟩, ⟨p', .setFlags _⟩] =>
    p == soleAssignment && q == "q" && p' == soleAssignment
  | _ => false

/-- The qualifier is accepted, and it is lost to the value. -/
theorem Writer.mem_reduce_iff_not_filled_qualifier :
    ∃ d w, Document.parse "a.cds" "annotate E with @A;" .default = .ok d ∧
      (Writer.ofDocument d .default).addAll qualifierThenFlags = .ok w ∧
      ⟨soleAssignment, .insertQualifier "q"⟩ ∈ w.changes ∧
      ⟨soleAssignment, .insertQualifier "q"⟩ ∉ Batch.reduce d.syntaxTree w.changes := by
  have hchecks : ((Document.parse "a.cds" "annotate E with @A;" .default).toOption.any fun d =>
      ((Writer.ofDocument d .default).addAll qualifierThenFlags).toOption.any fun w =>
        isEmptySlot d && setsQualifierThenFlags w.changes) = true := by decide +kernel
  obtain ⟨d, hd, hchecks⟩ := Locate.exists_ok_of_any hchecks
  obtain ⟨w, hw, hchecks⟩ := Locate.exists_ok_of_any hchecks
  obtain ⟨hvalueless, hchanges⟩ := Bool.and_eq_true_iff.mp hchecks
  obtain ⟨a, hn, hempty⟩ : ∃ a, d.syntaxTree.resolve? soleAssignment = some (Node.annotation a) ∧
      a.value = none := by
    rw [isEmptySlot] at hvalueless
    split at hvalueless
    · next a hn => exact ⟨a, hn, Option.isNone_iff_eq_none.mp hvalueless⟩
    · cases hvalueless
  obtain ⟨flags, hchanges⟩ : ∃ flags, w.changes =
      [⟨soleAssignment, .insertQualifier "q"⟩, ⟨soleAssignment, .setFlags flags⟩] := by
    rw [setsQualifierThenFlags.eq_def] at hchanges
    split at hchanges
    · next heq =>
      simp only [Bool.and_eq_true, beq_iff_eq] at hchanges
      obtain ⟨⟨rfl, rfl⟩, rfl⟩ := hchanges
      exact ⟨_, heq⟩
    · cases hchanges
  have hqualifier : ⟨soleAssignment, .insertQualifier "q"⟩ ∈ w.changes := by
    rw [hchanges]
    exact List.mem_cons_self
  refine ⟨d, w, hd, hw, hqualifier, fun hmem => ?_⟩
  refine (Writer.mem_reduce_iff_not_filled hw hn hempty ?_ _ hqualifier (.insertQualifier "q")).mp
    hmem ⟨soleAssignment, .setFlags flags⟩ ?_ (.flags flags)
  · intro o ho hremoves _
    rw [hchanges, List.mem_cons, List.mem_singleton] at ho
    rcases ho with rfl | rfl
    · cases hremoves
    · exact .flags flags
  · rw [hchanges]
    exact List.mem_cons_of_mem _ List.mem_cons_self

end AnnotationEdit

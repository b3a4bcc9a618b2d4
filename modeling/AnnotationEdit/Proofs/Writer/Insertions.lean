import AnnotationEdit.Proofs.Writer.Targets

/-!
# What an insertion writes

An insertion for the file is written between the plots of its targets (`Scene.writesAt_statement`).
Any other one is for a target or something below it (`Scene.root_or_reaches`), and is written on the
plot of the target, between the parts of its own node (`Scene.Reaches.exists_contribution`).
-/

namespace AnnotationEdit

open Syntax (Node)
open Batch (carriedOut anchorInEmpty isBareSingle insertsAnnotationAt)

/-! ## Insertions as they are carried out -/

namespace Batch

variable {file : Syntax.File} {o : Operation} {n : Node}

theorem isBareSingle_iff {p : Pointer} : isBareSingle file p = true ↔
    ∃ t, file.resolve? p = some (.target t) ∧ t.compound = none ∧ t.assignments.length = 1 := by
  rw [isBareSingle]
  split
  · next t ht =>
    rw [ht, Bool.and_eq_true, Option.isNone_iff_eq_none, beq_iff_eq]
    constructor
    · rintro ⟨hnone, hlength⟩
      exact ⟨t, rfl, hnone, hlength⟩
    · rintro ⟨t', heq, hnone, hlength⟩
      obtain rfl := Node.target.inj (Option.some.inj heq)
      exact ⟨hnone, hlength⟩
  · next hother =>
    constructor
    · intro h
      cases h
    · rintro ⟨t, ht, _⟩
      exact absurd ht (hother t)

/-- Only insertions into targets come with a mark. -/
theorem carriedOut_of_ne_target (hn : file.resolve? o.pointer = some n)
    (htarget : ∀ t, n ≠ .target t) : carriedOut file o = [anchorInEmpty file o] := by
  have hno : isBareSingle file o.pointer = false := by
    rw [Bool.eq_false_iff]
    intro h
    obtain ⟨t, ht, _⟩ := isBareSingle_iff.mp h
    rw [hn] at ht
    exact htarget t (Option.some.inj ht)
  rw [carriedOut]
  simp only [pointer_anchorInEmpty, hno, Bool.and_false, Bool.false_eq_true, if_false]

theorem inserts_anchored (file : Syntax.File) (ho : o.Inserts) :
    (anchorInEmpty file o).Inserts := by
  obtain ⟨hinsert, hroot⟩ := ho
  rw [anchorInEmpty]
  split
  · obtain ⟨p, action⟩ := o
    cases action with
    | insertTarget index target => exact ⟨rfl, hroot⟩
    | insert what index e => exact ⟨rfl, Bool.noConfusion⟩
    | insertReference reference => exact ⟨hinsert, hroot⟩
    | insertQualifier value => exact ⟨hinsert, hroot⟩
    | _ => cases hinsert
  · exact ⟨hinsert, hroot⟩

/-- In a list without members an insertion is nowhere behind one. -/
theorem clear_of_anchored {x : Position} (hn : file.resolve? o.pointer = some n)
    (h : n.Clear (anchorInEmpty file o).index? x) : n.Clear o.index? x := by
  rw [anchorInEmpty] at h
  split at h
  · next hempty =>
    obtain ⟨_, hlength⟩ := Bool.and_eq_true_iff.mp hempty
    rw [hn, Option.bind_some, beq_iff_eq] at hlength
    intro path c hc
    rw [Node.children_of_empty hlength] at hc
    cases hc
  · exact h

end Batch

namespace Scene

variable {s s' : Scene} {o : Operation} {d d' : Draft} {n : Node} {p : Pointer}
  {P : Position → Prop}

theorem writeAll_of_write (h : s.write d o = .ok d') (l : List Operation) :
    s.writeAll d (o :: l) = s.writeAll d' l := by
  rw [writeAll, h]
  rfl

theorem WritesAt.writeAll (h : WritesAt P p fun d => s.write d o) :
    WritesAt P p fun d => s.writeAll d [o] := by
  obtain ⟨c, ⟨honly, hadds⟩, hspots⟩ := h
  refine ⟨c, ⟨honly, fun d hd => ?_⟩, hspots⟩
  rw [writeAll_of_write (hadds d hd)]
  rfl

/-- An insertion below a target is written in its node. -/
theorem writesAt_write (hs : s.Parsed) (ho : o.Inserts)
    (hn : s.document.syntaxTree.resolve? o.pointer = some n) (hsuits : o.action.suits n = true)
    (hfile : ∀ f, n ≠ .file f) (htarget : ∀ t, n ≠ .target t) :
    WritesAt (n.Hosts o.index?) o.pointer fun d => s.write d o := by
  have hstatement : o.insertsStatement = false := by
    rw [Bool.eq_false_iff]
    intro h
    rw [ho.root h] at hn
    exact hfile _ (Option.some.inj hn).symm
  obtain ⟨p, action⟩ := o
  cases action with
  | insertTarget index target => cases hstatement
  | insertReference reference => cases hstatement
  | insertQualifier value => exact writesAt_insertQualifier hs hn hsuits
  | insert what index e =>
      cases what with
      | annotation =>
          cases n with
          | target t => exact absurd rfl (htarget t)
          | groupItems i => exact writesAt_insertItem hs hn
          | _ => cases hsuits
      | embeddedAnnotation => exact writesAt_insertEmbedded hs hn hsuits
      | recordProperty => exact writesAt_insertProperty hs hn hsuits
      | record => exact writesAt_insertValue hs hn hsuits
      | collection => exact writesAt_insertValue hs hn hsuits
      | primitiveValue => exact writesAt_insertValue hs hn hsuits
  | _ => cases ho.isInsert

theorem writesAt_carriedOut (hs : s.Parsed) (ho : o.Inserts) (hfits : o.Fits s.document.syntaxTree)
    (hn : s.document.syntaxTree.resolve? o.pointer = some n) (hfile : ∀ f, n ≠ .file f)
    (htarget : ∀ t, n ≠ .target t) : WritesAt (n.Hosts o.index?) o.pointer
      fun d => s.writeAll d (carriedOut s.document.syntaxTree o) := by
  have hpointer := Batch.pointer_anchorInEmpty s.document.syntaxTree o
  have hn' : s.document.syntaxTree.resolve?
      (anchorInEmpty s.document.syntaxTree o).pointer = some n := by rw [hpointer, hn]
  obtain ⟨⟨n', hn'', hsuits⟩, _⟩ := Batch.fits_anchorInEmpty hfits
  obtain rfl := Option.some.inj (hn'.symm.trans hn'')
  have hwrites :=
    (writesAt_write hs (Batch.inserts_anchored _ ho) hn' hsuits hfile htarget).writeAll
  rw [hpointer] at hwrites
  rw [Batch.carriedOut_of_ne_target hn htarget]
  refine hwrites.imp fun x hx => ?_
  exact ⟨hx.start_lt, hx.le_stop, hx.valueless, Batch.clear_of_anchored hn hx.clear⟩

theorem writesAt_statement (hs : s.Parsed) (ho : o.Inserts) (hpointer : o.pointer = .root)
    (hfits : o.Fits s.document.syntaxTree) : WritesAt (OffPlots s) o.pointer
      fun d => s.writeAll d (carriedOut s.document.syntaxTree o) := by
  have hn : s.document.syntaxTree.resolve? o.pointer = some (.file s.document.syntaxTree) := by
    rw [hpointer]
    rfl
  have hpointer' := Batch.pointer_anchorInEmpty s.document.syntaxTree o
  obtain ⟨⟨n, hn', hsuits⟩, _⟩ := Batch.fits_anchorInEmpty hfits
  rw [hpointer', hn] at hn'
  obtain rfl := Option.some.inj hn'
  have hwrites : WritesAt (OffPlots s) o.pointer
      fun d => s.write d (anchorInEmpty s.document.syntaxTree o) := by
    have hinserts := (Batch.inserts_anchored s.document.syntaxTree ho).isInsert
    generalize anchorInEmpty s.document.syntaxTree o = o' at hsuits hinserts
    obtain ⟨q, action⟩ := o'
    cases action with
    | insertTarget index target => exact writesAt_insertTarget hs target
    | insertReference reference => exact writesAt_insertReference hs reference
    | insert what index e => cases what <;> cases hsuits
    | insertQualifier value => cases hsuits
    | _ => cases hinserts
  rw [Batch.carriedOut_of_ne_target hn fun _ => Node.noConfusion]
  exact hwrites.writeAll

section Targets

variable {t : Syntax.Target} {us ws vs : List Token} {mark : Token}

theorem writesAt_target (h : s.Plot t us ws vs mark) (hs : s.Parsed) (ho : o.Inserts)
    (hn : s.document.syntaxTree.resolve? o.pointer = some (.target t))
    (hsuits : o.action.suits (.target t) = true)
    (hconverting : s.isConverting o.pointer = true →
      t.compound = none ∧ t.assignments.length = 1) :
    WritesAt (HostsAssignment t mark o.index?) o.pointer fun d => s.write d o := by
  obtain ⟨q, action⟩ := o
  cases action with
  | insert what index e =>
      cases what with
      | annotation => exact writesAt_insertAnnotation h hs hn hconverting
      | _ => cases hsuits
  | insertTarget index target =>
      rw [ho.root rfl] at hn
      cases hn
  | insertReference reference =>
      rw [ho.root rfl] at hn
      cases hn
  | insertQualifier value => cases hsuits
  | _ => cases ho.isInsert

/-- With an annotation for a target come the parentheses that it asks for. -/
theorem exists_contribution_target (h : s.Plot t us ws vs mark) (hs : s.Parsed) (ho : o.Inserts)
    (hfits : o.Fits s.document.syntaxTree)
    (hn : s.document.syntaxTree.resolve? o.pointer = some (.target t))
    (hconverting : s.isConverting o.pointer = true → t.compound = none ∧ t.assignments.length = 1)
    (hreplaced : s.replaced = []) :
    ∃ c : Draft, c.Contributes o.pointer
        (fun d => s.writeAll d (carriedOut s.document.syntaxTree o)) ∧
      ∀ x ∈ c.spots, OnPlot t mark x.1 ∧ (x.2 = .normal → (Node.target t).Clear o.index? x.1) := by
  have hpointer := Batch.pointer_anchorInEmpty s.document.syntaxTree o
  obtain ⟨⟨n, hn', hsuits⟩, _⟩ := Batch.fits_anchorInEmpty hfits
  have hanchored : ∀ x, (Node.target t).Clear (anchorInEmpty s.document.syntaxTree o).index? x →
      (Node.target t).Clear o.index? x := fun x => Batch.clear_of_anchored hn
  have hinserts := Batch.inserts_anchored s.document.syntaxTree ho
  rw [hpointer, hn] at hn'
  obtain rfl := Option.some.inj hn'
  rw [carriedOut]
  generalize anchorInEmpty s.document.syntaxTree o = o' at *
  rw [← hpointer] at hn hconverting ⊢
  obtain ⟨c, hc, hspots⟩ := writesAt_target h hs hinserts hn hsuits hconverting
  split
  · next hmarks =>
    obtain ⟨t', ht', hnone, hlength⟩ := Batch.isBareSingle_iff.mp (Bool.and_eq_true_iff.mp hmarks).2
    rw [hn] at ht'
    obtain rfl := Node.target.inj (Option.some.inj ht')
    obtain ⟨e, honly, hmarkSpots, hmark⟩ := convertToCompound_eq h hs hn hnone hlength hreplaced
    refine ⟨c.append e, hc.append honly fun d d' hd' => ?_, fun x hx => ?_⟩
    · have hmark' : s.write d' ⟨o'.pointer, .convertToCompound false⟩ = .ok (d'.append e) :=
        hmark d'
      rw [writeAll_of_write hd', writeAll_of_write hmark']
      rfl
    · -- the parentheses have priorities of their own
      rcases Draft.mem_spots_append.mp hx with hx | hx
      · exact ⟨(hspots x hx).2.1, fun _ => hanchored _ (hspots x hx).2.2⟩
      · exact ⟨(hmarkSpots x hx).2, fun hnormal => absurd hnormal (hmarkSpots x hx).1⟩
  · obtain ⟨c', hc', hspots'⟩ := WritesAt.writeAll ⟨c, hc, hspots⟩
    exact ⟨c', hc', fun x hx => ⟨(hspots' x hx).2.1, fun _ => hanchored _ (hspots' x hx).2.2⟩⟩

end Targets

/-- What the scene of a batch of insertions says about parentheses. -/
structure Ready (s : Scene) : Prop where
  parsed : s.Parsed
  converting : ∀ p t, s.isConverting p = true →
    s.document.syntaxTree.resolve? p = some (.target t) →
    t.compound = none ∧ t.assignments.length = 1
  replaced : s.replaced = []

theorem ne_of_inserts (ho : o.Inserts) (hroot : o.pointer ≠ .root)
    (hsuits : o.action.suits n = true) : (∀ q, n ≠ .qualifier q) ∧ ∀ u, n ≠ .declaration u := by
  have hother : ∀ m : Node, (∀ what : Insertable, what.suits m = false) →
      (∀ value, (Action.insertQualifier value).suits m = false) → n ≠ m := by
    rintro m hinsert hqualifier rfl
    obtain ⟨p, action⟩ := o
    cases action with
    | insertTarget index target => exact hroot (ho.root rfl)
    | insertReference reference => exact hroot (ho.root rfl)
    | insert what index e => exact Bool.false_ne_true ((hinsert what).symm.trans hsuits)
    | insertQualifier value => exact Bool.false_ne_true ((hqualifier value).symm.trans hsuits)
    | _ => cases ho.isInsert
  constructor
  · intro q
    exact hother (.qualifier q) (fun what => by cases what <;> rfl) fun _ => rfl
  · intro u
    exact hother (.declaration u) (fun what => by cases what <;> rfl) fun _ => rfl

/-- The insertion is for the target with the number `i`, or for the node `n` at `rest` below it. -/
structure Reaches (s : Scene) (o : Operation) (i : Nat) (t : Syntax.Target) (rest : List String)
    (n : Node) : Prop where
  inserts : o.Inserts
  fits : o.Fits s.document.syntaxTree
  target : s.document.syntaxTree.targets[i]? = some t
  pointer : o.pointer = ⟨["targets", toString i] ++ rest⟩
  node : (Node.target t).resolve? rest = some n

namespace Reaches

variable {i : Nat} {t : Syntax.Target} {rest : List String}

theorem mem_children (h : s.Reaches o i t rest n) :
    (["targets", toString i], Node.target t) ∈ (Node.file s.document.syntaxTree).children :=
  Node.target_mem_children h.target

theorem resolve_target (h : s.Reaches o i t rest n) :
    s.document.syntaxTree.resolve? ⟨["targets", toString i]⟩ = some (.target t) := by
  have hstep := Node.resolve?_of_mem_children h.mem_children []
  rw [List.append_nil] at hstep
  exact hstep

theorem resolve (h : s.Reaches o i t rest n) :
    s.document.syntaxTree.resolve? o.pointer = some n := by
  rw [Syntax.File.resolve?, h.pointer]
  exact (Node.resolve?_of_mem_children h.mem_children rest).trans h.node

theorem ne_file (h : s.Reaches o i t rest n) : ∀ f, n ≠ .file f :=
  Node.ne_file_of_resolve? (fun _ => Node.noConfusion) h.node

/-- An insertion for a target or something below it is written on the plot of the target, and
between the parts of its node. -/
theorem exists_contribution (h : s.Reaches o i t rest n) (hs : s.Ready) {us ws vs : List Token}
    {mark : Token} (hplot : s.Plot t us ws vs mark) :
    ∃ c : Draft, c.Contributes o.pointer
        (fun d => s.writeAll d (carriedOut s.document.syntaxTree o)) ∧
      (∀ x ∈ c.spots, OnPlot t mark x.1 ∧ (x.2 = .normal → n.Clear o.index? x.1)) ∧
      (rest ≠ [] → ∀ x ∈ c.spots, x.2 = .normal ∧ n.Hosts o.index? x.1) := by
  have hresolve := h.resolve
  have hnode := h.node
  by_cases hrest : rest = []
  · subst hrest
    obtain rfl := Option.some.inj hnode
    obtain ⟨c, hc, hspots⟩ := exists_contribution_target hplot hs.parsed h.inserts h.fits hresolve
      (fun hconverting => hs.converting _ _ hconverting hresolve) hs.replaced
    exact ⟨c, hc, hspots, fun hne => absurd rfl hne⟩
  · have htarget := Node.ne_target_of_resolve? (fun _ => Node.noConfusion) hnode hrest
    obtain ⟨c, hc, hspots⟩ :=
      writesAt_carriedOut hs.parsed h.inserts h.fits hresolve h.ne_file htarget
    refine ⟨c, hc, fun x hx => ⟨?_, fun _ => (hspots x hx).2.clear⟩, fun _ => hspots⟩
    obtain ⟨vocabulary, ts, hwritten, hts⟩ := hs.parsed.exists_ordered h.resolve_target
    have hinside := Range.contains_iff.mp
      (Node.contains_resolved hwritten hts (fun _ => Node.noConfusion) hnode)
    have hhosts := (hspots x hx).2
    exact ⟨lt_of_le_of_lt hinside.1 hhosts.start_lt,
      le_trans hhosts.le_stop (le_trans hinside.2 (hplot.stop_le hs.parsed))⟩

theorem ne_qualifier (h : s.Reaches o i t rest n) : ∀ q, n ≠ .qualifier q := by
  obtain ⟨⟨m, hm, hsuits⟩, _⟩ := h.fits
  rw [h.resolve] at hm
  obtain rfl := Option.some.inj hm
  refine (ne_of_inserts h.inserts ?_ hsuits).1
  rw [h.pointer]
  exact fun hroot => List.cons_ne_nil _ _ (Pointer.mk.inj hroot)

end Reaches

theorem root_or_reaches (ho : o.Inserts) (hfits : o.Fits s.document.syntaxTree) :
    o.pointer = .root ∨ ∃ i t rest n, s.Reaches o i t rest n := by
  obtain ⟨⟨n, hn, hsuits⟩, _⟩ := id hfits
  by_cases hroot : o.pointer = .root
  · exact Or.inl hroot
  · right
    have hother := (ne_of_inserts ho hroot hsuits).2
    obtain ⟨p, action⟩ := o
    rcases Syntax.resolve?_eq_some_first hn with ⟨hnil, _⟩ | ⟨first, rest, c, hp, hc, hrest⟩
    · exact absurd (congrArg Pointer.mk hnil) hroot
    · rcases Node.cases_of_mem_file hc with ⟨_, u, _, rfl, rfl⟩ | ⟨i, t, ht, rfl, rfl⟩
      · -- nothing is below a declaration
        rcases Syntax.resolve?_eq_some_first hrest with ⟨_, rfl⟩ | ⟨_, _, _, _, hmem, _⟩
        · exact absurd rfl (hother u)
        · cases hmem
      · exact ⟨i, t, rest, n, ho, hfits, ht, congrArg Pointer.mk hp, hrest⟩

end Scene

end AnnotationEdit

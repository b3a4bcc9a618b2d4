import AnnotationEdit.Proofs.Printing.References
import AnnotationEdit.Proofs.Syntax.Appending
import AnnotationEdit.Proofs.Writer.Exchange
import AnnotationEdit.Proofs.Writer.Renewals

/-!
# Targets and references at the end

A batch of targets without a place in the list and of references is always accepted. References are
written behind the last declaration, targets behind the last token, and at the start of a text that
has neither; these may be one place, and then the batch is written in its own order. The new text is
read as the file with the new targets and references behind the old ones (`Writer.parse_appended`).
-/

namespace AnnotationEdit

open Syntax (Item)
open Lexer (Spells Anything StartsLine)

/-! ## Edits at two places -/

namespace TextEdit

variable {lines : Lines} {p q : Position} {es fs : List TextEdit}

theorem comesFirst_of_isEmpty {e f : TextEdit} (he : e.range = .empty p) (hf : f.range = .empty q) :
    e.comesFirst f = decide (p ≤ q) := by
  have hlex : toLex (p, p) ≤ toLex (q, q) ↔ p ≤ q := by
    rw [Prod.Lex.le_iff]
    exact ⟨fun h => h.elim le_of_lt fun h => le_of_eq h.1,
      fun h => (lt_or_eq_of_le h).imp_right fun h => ⟨h, le_of_eq h⟩⟩
  rw [Bool.eq_iff_iff, comesFirst_iff, key, key, he, hf, decide_eq_true_iff]
  exact hlex

/-- Insertions at two places are sorted by the place. -/
theorem mergeSort_of_two (hpq : p < q)
    (h : ∀ e ∈ es, e.range = .empty p ∨ e.range = .empty q) :
    es.mergeSort comesFirst =
      es.filter (·.range.start = p) ++ es.filter fun e => !decide (e.range.start = p) := by
  refine mergeSort_eq_filter_append comesFirst_trans comesFirst_total fun a ha b hb => ?_
  have hne : q ≠ p := ne_of_gt hpq
  rcases h a ha with ha | ha <;> rcases h b hb with hb | hb <;>
    simp [comesFirst_of_isEmpty ha hb, ha, hb, Range.empty, hne, le_of_lt hpq, not_le_of_gt hpq]

/-- Insertions at one place, in front of what is written behind it. -/
theorem splice_insertions {cs : List Char} (hes : ∀ e ∈ es, e.range = .empty p)
    (hfs : ∀ cursor ≤ lines.index p,
      splice lines cursor fs = .ok (lines.between cursor (lines.index p) ++ cs)) :
    ∀ cursor ≤ lines.index p, splice lines cursor (es ++ fs) =
      .ok (lines.between cursor (lines.index p) ++ (es.flatMap (·.newText.toList) ++ cs)) := by
  induction es with
  | nil => exact hfs
  | cons e es ih =>
      intro cursor hcursor
      obtain ⟨he, hothers⟩ := List.forall_mem_cons.mp hes
      obtain ⟨range, newText⟩ := e
      obtain rfl : range = .empty p := he
      have hrest := ih hothers (lines.index p) (Nat.le_refl _)
      have hnone : lines.between (lines.index p) (lines.index p) = [] := by
        rw [Lines.between, Nat.sub_self, List.take_zero]
      rw [hnone, List.nil_append] at hrest
      have hstart : ¬ lines.index (Range.empty p).start < cursor := Nat.not_lt.mpr hcursor
      have hnext : Nat.max (lines.index (Range.empty p).stop) (lines.index (Range.empty p).start) =
          lines.index p := Nat.max_self _
      rw [List.cons_append, splice, if_neg hstart, hnext, hrest, List.flatMap_cons,
        List.append_assoc]
      rfl

theorem applyAll_of_two {text : String} {xs ys zs : List Char}
    (htext : text.toList = xs ++ (ys ++ zs)) (hp : (Lines.ofString text).index p = xs.length)
    (hq : (Lines.ofString text).index q = (xs ++ ys).length)
    (hes : ∀ e ∈ es, e.range = .empty p) (hfs : ∀ e ∈ fs, e.range = .empty q)
    (hsorted : (es ++ fs).mergeSort comesFirst = es ++ fs) :
    applyAll text (es ++ fs) = .ok (String.ofList (xs ++ (es.flatMap (·.newText.toList) ++
      (ys ++ (fs.flatMap (·.newText.toList) ++ zs))))) := by
  let lines := Lines.ofString text
  have hchars : lines.chars = xs ++ (ys ++ zs) := htext
  have hle : lines.index p ≤ lines.index q := by
    rw [hp, hq, List.length_append]
    exact Nat.le_add_right _ _
  have hend : ∀ cursor ≤ lines.index q,
      splice lines cursor [] = .ok (lines.between cursor (lines.index q) ++ zs) := by
    intro cursor hcursor
    have hrest : lines.chars.drop (lines.index q) = zs := by
      rw [hchars, hq, ← List.append_assoc, List.drop_left]
    rw [splice, drop_eq_between_append lines hcursor, hrest]
  have hlater := splice_insertions hfs hend
  rw [List.append_nil] at hlater
  have hmiddle : lines.between (lines.index p) (lines.index q) = ys := by
    rw [Lines.between, hchars, hp, List.drop_left, hq, List.length_append, Nat.add_sub_cancel_left,
      List.take_left]
  have hfirst : lines.between 0 (lines.index p) = xs := by
    rw [Lines.between, hchars, hp, List.drop_zero, Nat.sub_zero, List.take_left]
  have hearlier : ∀ cursor ≤ lines.index p, splice lines cursor fs =
      .ok (lines.between cursor (lines.index p) ++
        (ys ++ (fs.flatMap (·.newText.toList) ++ zs))) := by
    intro cursor hcursor
    rw [hlater cursor (Nat.le_trans hcursor hle), between_eq_append lines hcursor hle, hmiddle,
      List.append_assoc]
  have hall := splice_insertions hes hearlier 0 (Nat.zero_le _)
  rw [hfirst] at hall
  rw [applyAll, hsorted, hall]
  rfl

end TextEdit

/-! ## The operations -/

namespace Operation

/-- Adds a printable target without a place in the list, or a printable reference. -/
def appends (o : Operation) : Bool :=
  o.pointer.isRoot && match o.action with
    | .insertTarget none t => t.isPrintable .standard
    | .insertReference r => r.isPrintable
    | _ => false

def insertedTarget? (o : Operation) : Option Tree.Target :=
  match o.action with
  | .insertTarget _ t => some t
  | _ => none

def insertedReference? (o : Operation) : Option Tree.Reference :=
  match o.action with
  | .insertReference r => some r
  | _ => none

variable {o : Operation} {ops : List Operation}

theorem appends_cases (h : o.appends = true) :
    (∃ t, o = ⟨.root, .insertTarget none t⟩ ∧ t.isPrintable .standard = true) ∨
      ∃ r, o = ⟨.root, .insertReference r⟩ ∧ r.isPrintable = true := by
  obtain ⟨p, action⟩ := o
  obtain ⟨hroot, h⟩ := Bool.and_eq_true_iff.mp h
  obtain rfl : p = .root := by
    obtain ⟨segments⟩ := p
    exact congrArg Pointer.mk (List.isEmpty_iff.mp hroot)
  cases action with
  | insertTarget index t =>
      cases index with
      | none => exact Or.inl ⟨t, rfl, h⟩
      | some _ => cases h
  | insertReference r => exact Or.inr ⟨r, rfl, h⟩
  | _ => cases h

def isReference (o : Operation) : Bool := o.insertedReference?.isSome

theorem insertedTarget?_eq_none (h : o.isReference = true) : o.insertedTarget? = none := by
  obtain ⟨p, action⟩ := o
  cases action with
  | insertReference r => rfl
  | _ => cases h

theorem insertedReference?_eq_none (h : o.isReference = false) : o.insertedReference? = none :=
  Option.isNone_iff_eq_none.mp (Option.isSome_eq_false_iff.mp h)

/-- Leaving out those without a value changes nothing. -/
theorem filterMap_filter {β : Type} {f : Operation → Bool} {g : Operation → Option β}
    (h : ∀ o, f o = false → g o = none) : (ops.filter f).filterMap g = ops.filterMap g := by
  rw [List.filterMap_filter]
  refine List.filterMap_congr fun o _ => ?_
  cases hf : f o with
  | true => rfl
  | false => exact (h o hf).symm

/-- The items say what the operations insert, in the same order. -/
structure SaidIn (ops : List Operation) (items : List Item) : Prop where
  targets : (Syntax.targetsOf items).map (fun t => (t.abstraction .standard).canonical id) =
    (ops.filterMap insertedTarget?).map (·.canonical Vocabulary.standard.shorten)
  references : (Syntax.declarationsOf items).map (fun d => d.reference.bare) =
    (ops.filterMap insertedReference?).map (·.bare)

theorem SaidIn.append {more : List Operation} {items items' : List Item} (h : SaidIn ops items)
    (h' : SaidIn more items') : SaidIn (ops ++ more) (items ++ items') where
  targets := by
    rw [Syntax.targetsOf_append, List.map_append, h.targets, h'.targets, List.filterMap_append,
      List.map_append]
  references := by
    rw [Syntax.declarationsOf_append, List.map_append, h.references, h'.references,
      List.filterMap_append, List.map_append]

/-- Insertions at the end are accepted as they are. -/
theorem convert_appends (h : o.appends = true) (c : Conversion.Context) :
    Conversion.convert c o = .ok o := by
  rcases appends_cases h with ⟨t, rfl, _⟩ | ⟨r, rfl, _⟩ <;> rfl

end Operation

namespace Writer

theorem addAll_of_appends : ∀ {ops : List Operation} {w : Writer}, w.document.ghost = false →
    (∀ o ∈ ops, o.appends = true) → w.addAll ops = .ok { w with changes := w.changes ++ ops }
  | [], w, _, _ => by
      rw [List.append_nil]
      rfl
  | o :: ops, w, hghost, h => by
      obtain ⟨ho, hops⟩ := List.forall_mem_cons.mp h
      have hadd := add_eq_ok_iff.mpr ⟨hghost, o, o.convert_appends ho _, rfl⟩
      have hrest := addAll_of_appends (w := ⟨w.document, w.config, w.changes ++ [o]⟩) hghost hops
      rw [List.append_assoc] at hrest
      exact addAll_cons_iff.mpr ⟨_, hadd, hrest⟩

end Writer

namespace Batch

/-- Insertions at the end are carried out as they stand. -/
theorem reduce_of_appends {file : Syntax.File} {ops : List Operation}
    (h : ∀ o ∈ ops, o.appends = true) : reduce file ops = ops := by
  have hinserts : ∀ o ∈ ops, o.isInsert = true := by
    intro o ho
    rcases Operation.appends_cases (h o ho) with ⟨t, rfl, _⟩ | ⟨r, rfl, _⟩ <;> rfl
  have hanchored : ops.map (anchorInEmpty file) = ops := by
    rw [List.map_congr_left (g := id), List.map_id]
    intro o ho
    rcases Operation.appends_cases (h o ho) with ⟨t, rfl, _⟩ | ⟨r, rfl, _⟩ <;> rfl
  rw [reduce_of_isInsert hinserts, hanchored]
  refine marked_eq_self fun o ho p => ?_
  rcases Operation.appends_cases (h o ho) with ⟨t, rfl, _⟩ | ⟨r, rfl, _⟩ <;> rfl

end Batch

/-! ## What is written -/

namespace Scene

def insertionPlace (s : Scene) (o : Operation) : Position :=
  if o.isReference then s.document.referencePlace else s.document.targetPlace

def insertionText (s : Scene) (o : Operation) : String :=
  match o.action with
  | .insertTarget _ t =>
    match s.tokens.tokens.back? with
    | some _ => "\n\n" ++ s.printer.target t
    | none => s.printer.target t ++ "\n"
  | .insertReference r =>
    match s.document.syntaxTree.declarations.getLast? with
    | some _ => "\n" ++ Printer.reference r
    | none => Printer.reference r ++ "\n"
  | _ => ""

def insertion (s : Scene) (o : Operation) : TextEdit :=
  .insert (s.insertionPlace o) (s.insertionText o)

variable {s : Scene} {o : Operation} {ops : List Operation}

/-- An insertion at the end is written as one edit. -/
theorem write_insertion (ho : o.appends = true) (d : Draft) :
    s.write d o = .ok (d.push (s.insertion o) .normal) := by
  rcases Operation.appends_cases ho with ⟨t, rfl, _⟩ | ⟨r, rfl, _⟩
  · show Except.ok (s.insertTarget d none t) = _
    simp only [insertTarget, insertion, insertionText, insertionPlace, Document.targetPlace, tokens]
    cases s.document.tokens.tokens.back? <;> rfl
  · show Except.ok (s.insertReference d r) = _
    simp only [insertReference, insertion, insertionText, insertionPlace,
      Document.referencePlace]
    cases s.document.syntaxTree.declarations.getLast? <;> rfl

theorem spells_lined {lines text : String} {read : List Token → Prop}
    (h : Spells Anything text.toList read) (hlines : Text.allBlank lines.toList = true) :
    Spells Anything (lines ++ text).toList read := by
  rw [String.toList_append]
  exact h.blanks _ hlines

/-- A line feed behind. -/
theorem spells_ended {text : String} {read : List Token → Prop}
    (h : Spells Anything text.toList read) : Spells Anything (text ++ "\n").toList read := by
  rw [String.toList_append]
  exact h.thenBlank '\n' (by decide)

theorem spells_insertionText (hc : s.config.aliases = .standard) (ho : o.appends = true) :
    Spells Anything (s.insertionText o).toList fun ts => ∃ item : Item,
      item.WrittenAs .standard ts ∧ Operation.SaidIn [o] [item] := by
  rcases Operation.appends_cases ho with ⟨t, rfl, ht⟩ | ⟨r, rfl, hr⟩
  · have h : Spells Anything (s.printer.target t).toList fun ts => ∃ item : Item,
        item.WrittenAs .standard ts ∧ Operation.SaidIn [⟨.root, .insertTarget none t⟩] [item] := by
      refine (spells_target hc ht).imp ?_
      rintro ts ⟨statement, hts, hsays⟩
      refine ⟨.inr statement, hts, ?_, rfl⟩
      rw [Printing.SaysTarget, List.map_map] at hsays
      exact (congrArg _ (List.append_nil _)).trans hsays
    rw [insertionText]
    dsimp only
    split
    · exact spells_lined h (by decide)
    · exact spells_ended h
  · have h : Spells Anything (Printer.reference r).toList fun ts => ∃ item : Item,
        item.WrittenAs .standard ts ∧ Operation.SaidIn [⟨.root, .insertReference r⟩] [item] := by
      refine (Printing.spells_reference hr).imp ?_
      rintro ts ⟨d, hts, hbare⟩
      exact ⟨.inl d, hts, rfl, congrArg (fun r => [r]) hbare⟩
    rw [insertionText]
    dsimp only
    split
    · exact spells_lined h (by decide)
    · exact spells_ended h

/-- What a batch writes at one place is read as what it inserts. -/
theorem spells_insertions (hc : s.config.aliases = .standard) : ∀ {ops : List Operation},
    (∀ o ∈ ops, o.appends = true) → Spells Anything ((ops.map s.insertion).flatMap
      (·.newText.toList)) fun ts => ∃ items : List Item,
        Syntax.consecutive (Item.WrittenAs .standard) items ts ∧ Operation.SaidIn ops items
  | [], _ => Spells.nil.imp fun _ hts => ⟨[], hts, rfl, rfl⟩
  | o :: ops, h => by
      obtain ⟨ho, hops⟩ := List.forall_mem_cons.mp h
      refine ((spells_insertionText hc ho).append (spells_insertions hc hops)
        fun _ _ => trivial).imp ?_
      rintro ts ⟨us, vs, rfl, ⟨item, hus, hitem⟩, items, hvs, hitems⟩
      exact ⟨item :: items, ⟨us, vs, rfl, hus, hvs⟩, hitem.append hitems⟩

/-- A batch in the order of the text: what is written at the place of references, and what is
written behind everything. Between the two stands `back`. -/
structure Arranged (s : Scene) (back : List Item) (ops first later : List Operation) : Prop where
  sorted : (ops.map s.insertion).mergeSort TextEdit.comesFirst =
    first.map s.insertion ++ later.map s.insertion
  mem : ∀ o ∈ first ++ later, o ∈ ops
  placeFirst : ∀ o ∈ first, s.insertionPlace o = s.document.referencePlace
  placeLater : ∀ o ∈ later, s.insertionPlace o = s.document.targetPlace
  line : ∀ o ∈ later, StartsLine (s.insertionText o).toList
  targets : (first ++ later).filterMap Operation.insertedTarget? =
    ops.filterMap Operation.insertedTarget?
  references : (first ++ later).filterMap Operation.insertedReference? =
    ops.filterMap Operation.insertedReference?
  apart : back = [] ∨ first.filterMap Operation.insertedTarget? = []

/-- Where the places are one, the batch keeps its order. -/
theorem arranged_of_same (h : s.document.targetPlace = s.document.referencePlace) :
    s.Arranged [] ops ops [] := by
  have hplace : ∀ o, s.insertionPlace o = s.document.referencePlace := by
    intro o
    rw [insertionPlace, h, ite_self]
  have hranges : ∀ e ∈ ops.map s.insertion, e.range = .empty s.document.referencePlace :=
    List.forall_mem_map.mpr fun o _ => congrArg Range.empty (hplace o)
  refine ⟨?_, ?_, fun o _ => hplace o, nofun, nofun, ?_, ?_, Or.inl rfl⟩
  · rw [List.map_nil, List.append_nil]
    refine List.mergeSort_of_pairwise (List.pairwise_of_forall_mem_list fun e he f hf => ?_)
    rw [TextEdit.comesFirst_of_isEmpty (hranges e he) (hranges f hf)]
    exact decide_eq_true (le_refl _)
  · rw [List.append_nil]
    exact fun o ho => ho
  · rw [List.append_nil]
  · rw [List.append_nil]

theorem mergeSort_insertions (h : s.document.referencePlace < s.document.targetPlace) :
    (ops.map s.insertion).mergeSort TextEdit.comesFirst =
      (ops.filter (·.isReference)).map s.insertion ++
        (ops.filter (!·.isReference)).map s.insertion := by
  have hranges : ∀ e ∈ ops.map s.insertion, e.range = .empty s.document.referencePlace ∨
      e.range = .empty s.document.targetPlace := by
    refine List.forall_mem_map.mpr fun o _ => ?_
    show Range.empty (s.insertionPlace o) = _ ∨ Range.empty (s.insertionPlace o) = _
    rw [insertionPlace]
    split
    · exact Or.inl rfl
    · exact Or.inr rfl
  have hplace : ∀ o ∈ ops, decide ((s.insertion o).range.start = s.document.referencePlace) =
      o.isReference := by
    intro o _
    show decide (s.insertionPlace o = s.document.referencePlace) = _
    rw [insertionPlace]
    cases o.isReference with
    | true => exact decide_eq_true rfl
    | false => exact decide_eq_false (ne_of_gt h)
  rw [TextEdit.mergeSort_of_two h hranges, List.filter_map, List.filter_map]
  congr 2
  · exact List.filter_congr hplace
  · exact List.filter_congr fun o ho => congrArg (!·) (hplace o ho)

theorem startsLine_insertionText (htokens : s.document.tokens.tokens.toList ≠ [])
    (ho : o.appends = true) (htarget : o.isReference = false) :
    StartsLine (s.insertionText o).toList := by
  rcases Operation.appends_cases ho with ⟨t, rfl, _⟩ | ⟨r, rfl, _⟩
  · rw [insertionText]
    dsimp only
    split
    · rw [String.toList_append]
      rfl
    · next hnone =>
      rw [← Array.getLast?_toList, List.getLast?_eq_none_iff] at hnone
      exact absurd hnone htokens
  · cases htarget

/-- Otherwise the references come first. -/
theorem arranged_of_lt (h : s.document.referencePlace < s.document.targetPlace)
    (htokens : s.document.tokens.tokens.toList ≠ []) (hops : ∀ o ∈ ops, o.appends = true)
    (back : List Item) :
    s.Arranged back ops (ops.filter (·.isReference)) (ops.filter (!·.isReference)) := by
  have hfirst : ∀ o ∈ ops.filter (·.isReference), o ∈ ops ∧ o.isReference = true :=
    fun o => List.mem_filter.mp
  have hlater : ∀ o ∈ ops.filter (!·.isReference), o ∈ ops ∧ o.isReference = false := by
    intro o ho
    obtain ⟨hmem, hnot⟩ := List.mem_filter.mp ho
    exact ⟨hmem, Bool.not_eq_true' _ ▸ hnot⟩
  have hnoTarget : (ops.filter (·.isReference)).filterMap Operation.insertedTarget? = [] :=
    List.filterMap_eq_nil_iff.mpr fun o ho => Operation.insertedTarget?_eq_none (hfirst o ho).2
  have hnoReference : (ops.filter (!·.isReference)).filterMap Operation.insertedReference? = [] :=
    List.filterMap_eq_nil_iff.mpr fun o ho => Operation.insertedReference?_eq_none (hlater o ho).2
  refine ⟨mergeSort_insertions h, List.forall_mem_append.mpr ⟨fun o ho => (hfirst o ho).1,
    fun o ho => (hlater o ho).1⟩, fun o ho => ?_, fun o ho => ?_, fun o ho => ?_, ?_, ?_,
    Or.inr hnoTarget⟩
  · rw [insertionPlace, if_pos (hfirst o ho).2]
  · rw [insertionPlace, if_neg (by rw [(hlater o ho).2]; exact Bool.false_ne_true)]
  · exact startsLine_insertionText htokens (hops o (hlater o ho).1) (hlater o ho).2
  · rw [List.filterMap_append, hnoTarget, List.nil_append]
    refine Operation.filterMap_filter fun o ho => Operation.insertedTarget?_eq_none ?_
    rwa [Bool.not_eq_false'] at ho
  · rw [List.filterMap_append, hnoReference, List.append_nil]
    exact Operation.filterMap_filter fun o => Operation.insertedReference?_eq_none

theorem exists_arranged {back : List Item} (h : ∀ o ∈ ops, o.appends = true)
    (horder : (back = [] ∧ s.document.targetPlace = s.document.referencePlace) ∨
      (s.document.tokens.tokens.toList ≠ [] ∧
        s.document.referencePlace < s.document.targetPlace)) :
    ∃ first later, s.Arranged back ops first later := by
  rcases horder with ⟨rfl, hsame⟩ | ⟨htokens, hlt⟩
  · exact ⟨_, _, arranged_of_same hsame⟩
  · exact ⟨_, _, arranged_of_lt hlt htokens h back⟩

namespace Arranged

variable {back : List Item} {first later : List Operation}

/-- What is written behind everything starts a line. -/
theorem startsLine (h : s.Arranged back ops first later)
    (hsome : (later.map s.insertion).flatMap (·.newText.toList) ≠ []) :
    StartsLine ((later.map s.insertion).flatMap (·.newText.toList)) := by
  cases later with
  | nil => exact absurd rfl hsome
  | cons o later =>
      have ho : StartsLine (s.insertion o).newText.toList := h.line o List.mem_cons_self
      obtain ⟨cs, hcs⟩ := List.head?_eq_some_iff.mp ho
      rw [List.map_cons, List.flatMap_cons, hcs]
      rfl

/-- The items in a file with what the batch inserts, in the order of the text. -/
theorem saidIn (h : s.Arranged back ops first later) {items items' : List Item}
    (hitems : Operation.SaidIn first items) (hitems' : Operation.SaidIn later items') :
    Operation.SaidIn ops (items ++ items') := by
  obtain ⟨htargets, hreferences⟩ := hitems.append hitems'
  rw [h.targets] at htargets
  rw [h.references] at hreferences
  exact ⟨htargets, hreferences⟩

/-- The text with what the batch inserts at the two places. -/
theorem applyAll (h : s.Arranged back ops first later) {uri text : String} {c : Configuration}
    {front : List Item} {before after : List Token} {shown rest shown' rest' : List Char}
    (hparts : Document.Parts uri text c s.document front back before after shown rest shown'
      rest') :
    TextEdit.applyAll text (first.map s.insertion ++ later.map s.insertion) =
      .ok (String.ofList (shown ++ ((first.map s.insertion).flatMap (·.newText.toList) ++
        (shown' ++ ((later.map s.insertion).flatMap (·.newText.toList) ++ rest'))))) := by
  have htext : text.toList = shown ++ (shown' ++ rest') := by
    rw [← hparts.target.split]
    exact hparts.reference.split
  have hlast : (Lines.ofString text).index s.document.targetPlace = (shown ++ shown').length := by
    rw [← hparts.target.index, ← hparts.reference.split]
    rfl
  refine TextEdit.applyAll_of_two htext hparts.reference.index hlast
    (List.forall_mem_map.mpr fun o ho => ?_) (List.forall_mem_map.mpr fun o ho => ?_) ?_
  · exact congrArg Range.empty (h.placeFirst o ho)
  · exact congrArg Range.empty (h.placeLater o ho)
  · rw [← h.sorted]
    exact List.mergeSort_of_pairwise (List.pairwise_mergeSort TextEdit.comesFirst_trans
      TextEdit.comesFirst_total _)

/-- The new text is read as the file with the inserted items at the two places. -/
theorem exists_parse (h : s.Arranged back ops first later) {uri text : String} {c : Configuration}
    {front : List Item} {before after : List Token} {shown rest shown' rest' : List Char}
    (hparts : Document.Parts uri text c s.document front back before after shown rest shown' rest')
    (hc : c.aliases = .standard) (hs : s.config = c) (hops : ∀ o ∈ ops, o.appends = true) :
    ∃ newText d items items', TextEdit.applyAll text
      (first.map s.insertion ++ later.map s.insertion) = .ok newText ∧
      Document.parse uri newText c = .ok d ∧ d.tree.bare = ((Document.fileOf uri newText
        (front ++ (items ++ (back ++ items')))).abstraction c.aliases).bare ∧
      Operation.SaidIn first items ∧ Operation.SaidIn later items' := by
  obtain ⟨hfirst, hlater⟩ := List.forall_mem_append.mp h.mem
  have hconfig : s.config.aliases = .standard := by rw [hs, hc]
  have hxs := spells_insertions hconfig fun o ho => hops o (hfirst o ho)
  have hys := spells_insertions hconfig fun o ho => hops o (hlater o ho)
  obtain ⟨ts, us, ⟨items, hts, hsaid⟩, ⟨items', hus, hsaid'⟩, hcode, hcodes⟩ :=
    Lexer.exists_codes hparts.reference hparts.target hxs hys h.startsLine
  rw [← hc] at hts hus
  have hitems := Syntax.consecutive_append hparts.writtenFront (Syntax.consecutive_append hts
    (Syntax.consecutive_append hparts.writtenBack hus))
  rw [Document.filter_isCode_plain, Document.filter_isCode_plain, ← List.map_append,
    ← List.map_append, ← List.map_append] at hcodes
  obtain ⟨d, hparse, hbare⟩ := Document.exists_parse_of_codes uri hitems hcodes
  exact ⟨_, d, items, items', h.applyAll hparts, hparse, hbare, hsaid, hsaid'⟩

/-- The old items stay in front of the inserted ones, as targets and as references. -/
theorem splits (h : s.Arranged back ops first later)
    (hdeclarations : Syntax.declarationsOf back = []) {items : List Item}
    (hitems : Operation.SaidIn first items) (front items' : List Item) :
    Syntax.targetsOf (front ++ (items ++ (back ++ items'))) =
        Syntax.targetsOf (front ++ back) ++ Syntax.targetsOf (items ++ items') ∧
      Syntax.declarationsOf (front ++ (items ++ (back ++ items'))) =
        Syntax.declarationsOf (front ++ back) ++ Syntax.declarationsOf (items ++ items') := by
  constructor
  · rcases h.apart with rfl | hnone
    · simp only [Syntax.targetsOf_append, List.nil_append, List.append_nil]
    · have htargets := hitems.targets
      rw [hnone, List.map_nil, List.map_eq_nil_iff] at htargets
      simp only [Syntax.targetsOf_append, htargets, List.append_assoc, List.nil_append]
  · simp only [Syntax.declarationsOf_append, hdeclarations, List.nil_append, List.append_nil]

end Arranged

end Scene

namespace Writer

/-- What is written for a batch of insertions at the end, in the order of the text. -/
theorem textEdits_of_appends {w : Writer} (hw : ∀ o ∈ w.changes, o.appends = true) :
    w.textEdits = .ok ((w.changes.map w.scene.insertion).mergeSort TextEdit.comesFirst) := by
  refine textEdits_of_pushes (Batch.reduce_of_appends hw)
    (fun o ho => Scene.write_insertion (hw o ho)) (fun o _ => TextEdit.isDeletion_insert _ _) ?_
  have hempty : ∀ e ∈ (w.changes.map w.scene.insertion).mergeSort TextEdit.comesFirst,
      ∃ p, e.range = .empty p := by
    intro e he
    obtain ⟨o, _, rfl⟩ := List.mem_map.mp (List.mem_mergeSort.mp he)
    exact ⟨_, rfl⟩
  refine (List.pairwise_mergeSort TextEdit.comesFirst_trans TextEdit.comesFirst_total
    _).imp_of_mem fun {e f} he hf hfirst => ?_
  obtain ⟨p, hp⟩ := hempty e he
  obtain ⟨q, hq⟩ := hempty f hf
  rw [TextEdit.comesFirst_of_isEmpty hp hq] at hfirst
  rw [Range.Before, hp, hq]
  exact of_decide_eq_true hfirst

variable {uri text : String} {c : Configuration} {document : Document}

/-- A batch of printable targets without a place in the list and of printable references, in any
order, is accepted for every text that can be read. The new text can be read too: its targets are
the old ones and then the new ones, and its references the old ones and then the new ones, each in
the order of the batch. -/
theorem parse_appended (h : Document.parse uri text c = .ok document) (hc : c.aliases = .standard)
    {ops : List Operation} (hops : ∀ o ∈ ops, o.appends = true) :
    ∃ w edits newText document' kept fresh, (ofDocument document c).addAll ops = .ok w ∧
      w.textEdits = .ok edits ∧ TextEdit.applyAll text edits = .ok newText ∧
      Document.parse uri newText c = .ok document' ∧ document'.tree.targets = kept ++ fresh ∧
      kept.map (·.bare) = document.tree.targets.map (·.bare) ∧
      fresh.map (·.canonical id) =
        (ops.filterMap Operation.insertedTarget?).map (·.canonical c.aliases.shorten) ∧
      document'.tree.references.map (·.bare) = document.tree.references.map (·.bare) ++
        (ops.filterMap Operation.insertedReference?).map (·.bare) := by
  obtain ⟨front, back, before, after, shown, rest, shown', rest', hparts⟩ :=
    Document.exists_places h
  let w : Writer := ⟨document, c, ops⟩
  have hghost : document.ghost = false := by
    obtain ⟨_, _, _, _, _, _, rfl⟩ := Document.parse_eq_ok_iff.mp h
    rfl
  have hadd : (ofDocument document c).addAll ops = .ok w := addAll_of_appends hghost hops
  obtain ⟨first, later, harranged⟩ := w.scene.exists_arranged hops hparts.order
  obtain ⟨newText, document', items, items', happly, hparse, hbare, hsaid, hsaid'⟩ :=
    harranged.exists_parse hparts hc rfl hops
  obtain ⟨htargets, hdeclarations⟩ := harranged.splits hparts.declarations hsaid front items'
  obtain ⟨hnewTargets, hnewReferences⟩ := harranged.saidIn hsaid hsaid'
  rw [← harranged.sorted] at happly
  have hallTargets : document'.tree.targets.map (·.bare) =
      document.tree.targets.map (·.bare) ++ ((Syntax.targetsOf (items ++ items')).map
        (·.abstraction c.aliases)).map (·.bare) := by
    rw [hparts.tree, ← List.map_append]
    refine (congrArg Tree.File.targets hbare).trans ?_
    show ((Syntax.targetsOf _).map _).map _ = _
    rw [htargets, List.map_append]
    rfl
  have hallReferences : document'.tree.references.map (·.bare) =
      document.tree.references.map (·.bare) ++
        (Syntax.declarationsOf (items ++ items')).map (·.reference.bare) := by
    rw [hparts.tree]
    refine (congrArg Tree.File.references hbare).trans ?_
    show ((Syntax.declarationsOf _).map _).map _ = _
    rw [hdeclarations, List.map_append, List.map_append]
    exact congrArg _ List.map_map
  obtain ⟨kept, fresh, hsplit, hkept, hfresh⟩ := List.map_eq_append_iff.mp hallTargets
  refine ⟨w, _, newText, document', kept, fresh, hadd, textEdits_of_appends hops, happly, hparse,
    hsplit, hkept, ?_, ?_⟩
  · have hcanonical : ∀ ts : List Tree.Target,
        (ts.map (·.bare)).map (·.canonical id) = ts.map (·.canonical id) := by
      intro ts
      rw [List.map_map]
      exact List.map_congr_left fun t _ => t.canonical_bare id
    rw [← hcanonical, hfresh, hcanonical, List.map_map, hc]
    exact hnewTargets
  · rw [hallReferences, hnewReferences]

/-- Two references and two targets, in turn. -/
def sampleAppended : List Operation :=
  [⟨.root, .insertTarget none ⟨"my.Books", none, none, [sampleColumns]⟩⟩,
    ⟨.root, .insertReference ⟨"my.Books", some "B", some "it's/b", none⟩⟩,
    ⟨.root, .insertTarget none ⟨"E/title", none, none, [sampleColumns, sampleColumns]⟩⟩,
    ⟨.root, .insertReference ⟨"", none, some "./c", none⟩⟩]

theorem parse_appended_between :
    ∃ document w edits newText document' kept fresh,
      Document.parse "a.cds" "using A from './a'; /* a */ annotate E with @A; // last" .default =
        .ok document ∧ (∀ o ∈ sampleAppended, o.appends = true) ∧
      (ofDocument document .default).addAll sampleAppended = .ok w ∧ w.textEdits = .ok edits ∧
      TextEdit.applyAll "using A from './a'; /* a */ annotate E with @A; // last" edits =
        .ok newText ∧
      Document.parse "a.cds" newText .default = .ok document' ∧
      document'.tree.targets = kept ++ fresh ∧
      kept.map (·.bare) = document.tree.targets.map (·.bare) ∧
      fresh.map (·.canonical id) = (sampleAppended.filterMap Operation.insertedTarget?).map
        (·.canonical Configuration.default.aliases.shorten) ∧
      document'.tree.references.map (·.bare) = document.tree.references.map (·.bare) ++
        (sampleAppended.filterMap Operation.insertedReference?).map (·.bare) := by
  have hread : ((Document.parse "a.cds" "using A from './a'; /* a */ annotate E with @A; // last"
      .default).toOption.any fun _ => true) = true := by
    decide +kernel
  obtain ⟨document, hparse, _⟩ := Locate.exists_ok_of_any hread
  have hops : ∀ o ∈ sampleAppended, o.appends = true := by decide +kernel
  obtain ⟨w, edits, newText, document', kept, fresh, hrest⟩ := parse_appended hparse rfl hops
  exact ⟨document, w, edits, newText, document', kept, fresh, hparse, hops, hrest⟩

end Writer

end AnnotationEdit

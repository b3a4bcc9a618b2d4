import AnnotationEdit.Proofs.Syntax.Replacing
import AnnotationEdit.Proofs.Writer.Slots

/-!
# Strings in the place of strings

A text that is put into a string literal is written in the quotes of that literal: single quotes
double the quotes in the text, back quotes enclose it as it is. Both are read back as the text
(`spells_requote`), so the new file has the text there and everything else as it was
(`Writer.parse_replaceText`). The exception is a back quote in a literal in back quotes, which ends
the literal; no such literal of any file holds one (`Document.backquote_not_mem_unquote`).
-/

namespace AnnotationEdit

open Syntax (Node Primitive Value)

/-- A string literal, in quotes of either kind. -/
def Syntax.Primitive.isString (q : Primitive) : Bool :=
  q.kind == .string || q.kind == .multiLineString

/-! ## Back quotes -/

namespace Lexer

/-- Characters without a back quote are read up to the one behind them. -/
theorem throughBackquote?_of_not_mem {rest : List Char} : ∀ {cs : List Char}, backquote ∉ cs →
    throughBackquote? (cs ++ backquote :: rest) = some (cs ++ [backquote], rest)
  | [], _ => by rw [List.nil_append, throughBackquote?, if_pos rfl, List.nil_append]
  | c :: cs, h => by
      rw [List.cons_append, throughBackquote?, if_neg (List.ne_of_not_mem_cons h).symm,
        throughBackquote?_of_not_mem (List.not_mem_of_not_mem_cons h)]
      rfl

/-- What is read up to a back quote has none in front of it. -/
theorem not_mem_of_throughBackquote? {cs body rest : List Char}
    (h : throughBackquote? cs = some (body, rest)) : backquote ∉ body.dropLast := by
  fun_induction throughBackquote? cs generalizing body with
  | case1 => cases h
  | case2 cs =>
      obtain ⟨rfl, _⟩ := Prod.mk.inj (Option.some.inj h)
      exact List.not_mem_nil
  | case3 c cs hc ih =>
      obtain ⟨⟨b, r⟩, hb, heq⟩ := Option.map_eq_some_iff.mp h
      obtain ⟨rfl, rfl⟩ := Prod.mk.inj heq
      have hlast := (throughBackquote?_eq_some hb).2
      rw [List.dropLast_cons_of_ne_nil (List.ne_nil_of_mem (List.mem_of_getLast? hlast))]
      exact List.not_mem_cons_of_ne_of_not_mem (Ne.symm hc) (ih hb)

theorem spells_backquoted {s : String} (h : backquote ∉ s.toList) :
    Spells Anything ("\x60" ++ s ++ "\x60").toList
      (fun ts => ∃ t : Token, ts = [t] ∧ t.IsLiteral .string ∧ t.text = "\x60" ++ s ++ "\x60") := by
  have hs : ("\x60" ++ s ++ "\x60").toList = backquote :: (s.toList ++ [backquote]) := by
    rw [String.toList_append, String.toList_append]
    rfl
  have hscan : ∀ rest, Anything rest → scan backquote ((s.toList ++ [backquote]) ++ rest) =
      .ok (.string, s.toList ++ [backquote], rest) := by
    intro rest _
    have hthrough : throughBackquote? ((s.toList ++ [backquote]) ++ rest) =
        some (s.toList ++ [backquote], rest) := by
      rw [List.append_assoc, List.singleton_append, throughBackquote?_of_not_mem h]
    rw [scan, if_neg (by simp [backquote]), if_neg (by simp [backquote]), if_neg (by decide),
      if_pos rfl, hthrough]
  rw [hs]
  refine (spells_scan none (by decide) rfl hscan).imp ?_
  rintro ts ⟨t, rfl, hkind, hrole, htext⟩
  refine ⟨t, rfl, ⟨hkind, hrole⟩, ?_⟩
  rw [htext, ← hs, String.ofList_toList]

end Lexer

namespace Syntax

/-- The text of a literal in back quotes is what stands between them. -/
theorem unquote_of_backquote {text : String} {body : List Char}
    (h : text.toList = Lexer.backquote :: body) (hlast : body.getLast? = some Lexer.backquote) :
    unquote text = String.ofList body.dropLast := by
  have hquote : (Lexer.backquote = Lexer.quote) = False := by decide
  simp [unquote, h, hlast, hquote]

theorem unquote_backquoted (s : String) : unquote ("\x60" ++ s ++ "\x60") = s := by
  have htext : ("\x60" ++ s ++ "\x60").toList =
      Lexer.backquote :: (s.toList ++ [Lexer.backquote]) := by
    rw [String.toList_append, String.toList_append]
    rfl
  rw [unquote_of_backquote htext List.getLast?_concat, List.dropLast_concat, String.ofList_toList]

/-- A string literal is one token, in back quotes if it may have several lines. -/
theorem Primitive.WrittenAs.of_isString {q : Primitive} {us : List Token} (h : q.WrittenAs us)
    (hstring : q.isString = true) : ∃ t, us = [t] ∧ t.IsLiteral .string ∧ q.text = t.text ∧
      (q.kind = .multiLineString ↔ t.text.toList.head? = some Lexer.backquote) := by
  rcases h with ⟨t, rfl, ht, rfl⟩ | ⟨t, rfl, ht, rfl⟩ | ⟨hash, t, rfl, _, _, rfl⟩ |
    ⟨name, hname, rfl⟩
  · refine ⟨t, rfl, ht, rfl, ?_⟩
    dsimp only
    split
    · next hhead => exact iff_of_true rfl (beq_iff_eq.mp hhead)
    · next hhead => exact iff_of_false nofun fun heq => hhead (beq_iff_eq.mpr heq)
  · cases hstring
  · cases hstring
  · rw [isString, Parser.nameKind] at hstring
    split at hstring
    · cases hstring
    · split at hstring <;> cases hstring

/-- A literal that stands below a node can be replaced by another one. -/
theorem Node.Admits.primitive {vocabulary : Vocabulary} {parent : Node} {q : Primitive}
    {us : List Token} (h : parent.Admits vocabulary (.primitive q) us) : q.WrittenAs us ∧
      ∀ (v : Primitive) ws, v.WrittenAs ws → parent.Admits vocabulary (.primitive v) ws := by
  have hvalue : ∀ {v : Value}, Node.primitive q = Node.ofValue v → v.WrittenAs us →
      q.WrittenAs us := by
    rintro (r | l | p) heq hv
    · cases heq
    · cases heq
    · obtain rfl := Node.primitive.inj heq
      rw [Value.WrittenAs] at hv
      exact hv
  have hnew : ∀ {v : Primitive} {ws}, v.WrittenAs ws → (Value.primitive v).WrittenAs ws := by
    intro v ws hv
    rw [Value.WrittenAs]
    exact hv
  cases parent with
  | annotation a =>
      obtain ⟨v, heq, hv, _⟩ := h
      exact ⟨hvalue heq hv, fun v ws hv => ⟨.primitive v, rfl, hnew hv, nofun⟩⟩
  | property p =>
      obtain ⟨v, heq, hv⟩ := h
      exact ⟨hvalue heq hv, fun v ws hv => ⟨.primitive v, rfl, hnew hv⟩⟩
  | collection l =>
      obtain ⟨v, heq, hv⟩ := h
      exact ⟨hvalue heq hv, fun v ws hv => ⟨.primitive v, rfl, hnew hv⟩⟩
  | _ => cases h.mayHold

end Syntax

/-- A string in single quotes, or in back quotes where it holds none, is read as its text. -/
theorem spells_requote {q : Primitive} {s : String} (hstring : q.isString = true)
    (hhead : q.kind = .multiLineString ↔ q.text.toList.head? = some Lexer.backquote)
    (hs : q.kind = .multiLineString → Lexer.backquote ∉ s.toList) :
    Lexer.Spells Lexer.Break (Scene.requote q s).toList fun ts => ∃ v : Primitive,
      v.WrittenAs ts ∧ v.kind = q.kind ∧ Syntax.unquote v.text = s := by
  rw [Primitive.isString, Bool.or_eq_true, beq_iff_eq, beq_iff_eq] at hstring
  rcases hstring with hkind | hkind
  · have hquotes : Scene.requote q s = Printer.quote s := by
      rw [Scene.requote, hkind]
      rfl
    rw [hquotes]
    refine (Lexer.spells_quote s).mono (fun rest hrest b hb => (hrest b hb).2.2) ?_
    rintro ts ⟨t, rfl, ht, htext⟩
    refine ⟨_, Or.inl ⟨t, rfl, ht, rfl⟩, ?_, ?_⟩
    · have hfirst : (t.text.toList.head? == some Lexer.backquote) = false := by
        rw [htext, Printer.quote, String.toList_ofList]
        rfl
      rw [hfirst, hkind]
      rfl
    · exact (congrArg Syntax.unquote htext).trans (Printing.unquote_quote s)
  · have hquotes : Scene.requote q s = "\x60" ++ s ++ "\x60" := by
      rw [Scene.requote, hkind, hhead.mp hkind]
      rfl
    rw [hquotes]
    refine (Lexer.spells_backquoted (hs hkind)).ofAnything.imp ?_
    rintro ts ⟨t, rfl, ht, htext⟩
    refine ⟨_, Or.inl ⟨t, rfl, ht, rfl⟩, ?_, ?_⟩
    · have hfirst : (t.text.toList.head? == some Lexer.backquote) = true := by
        rw [htext, String.toList_append, String.toList_append]
        rfl
      rw [hfirst, hkind]
      rfl
    · exact (congrArg Syntax.unquote htext).trans (Syntax.unquote_backquoted s)

theorem Scene.requote_ne_nil (q : Primitive) (s : String) : (requote q s).toList ≠ [] := by
  rw [requote]
  split
  · rw [String.toList_append, String.toList_append]
    exact List.append_ne_nil_of_right_ne_nil _ (List.cons_ne_nil _ _)
  · rw [Printer.quote, String.toList_ofList]
    exact List.cons_ne_nil _ _

/-! ## Literals of a document -/

namespace Document

variable {uri text : String} {c : Configuration} {d : Document}

theorem head_of_isString (h : parse uri text c = .ok d) {t : Token}
    (ht : t ∈ d.tokens.tokens.toList) (hliteral : t.IsLiteral .string) :
    t.text.toList.head? = some Lexer.quote ∨ ∃ tail, t.text.toList = Lexer.backquote :: tail ∧
      tail.getLast? = some Lexer.backquote ∧ Lexer.backquote ∉ tail.dropLast := by
  obtain ⟨b, tail, follow, htext, hlexeme⟩ := exists_lexeme h ht
  rw [hliteral.1] at hlexeme
  generalize hkind : TokenKind.string = kind at hlexeme
  cases hlexeme with
  | quoted hb => exact Or.inl (by rw [htext, hb]; rfl)
  | backquoted hb hthrough hlast =>
      exact Or.inr ⟨tail, by rw [htext, hb], hlast,
        Lexer.not_mem_of_throughBackquote? (hthrough [])⟩
  | word =>
      unfold Lexer.wordKind at hkind
      split at hkind <;> cases hkind
  | lineComment => cases hkind
  | blockComment => cases hkind
  | number => cases hkind
  | mark => cases hkind

/-- No literal in back quotes holds a back quote. -/
theorem backquote_not_mem_unquote (h : parse uri text c = .ok d) {p : Pointer} {q : Primitive}
    (hq : d.syntaxTree.resolve? p = some (.primitive q)) (hkind : q.kind = .multiLineString) :
    Lexer.backquote ∉ (Syntax.unquote q.text).toList := by
  obtain ⟨us, hsub, hwritten⟩ := exists_written h hq
  have hstring : q.isString = true := by
    rw [Primitive.isString, hkind]
    rfl
  obtain ⟨t, rfl, hliteral, htext, hhead⟩ := Primitive.WrittenAs.of_isString hwritten hstring
  have ht : t ∈ d.tokens.tokens.toList :=
    (List.mem_filter.mp (hsub.subset List.mem_cons_self)).1
  rcases head_of_isString h ht hliteral with hquote | ⟨tail, htail, hlast, hnone⟩
  · rw [hhead.mp hkind] at hquote
    cases hquote
  · rw [htext, Syntax.unquote_of_backquote htail hlast, String.toList_ofList]
    exact hnone

end Document

/-! ## Operations that put a text into a literal -/

/-- The text that an operation puts into a literal. -/
def Operation.newText? (o : Operation) : Option String :=
  match o.action with
  | .replaceTextValue s => some s
  | .updatePrimitiveValue e => if e.kind = .string then some e.textOrEmpty else none
  | _ => none

theorem Operation.newText?_cases {o : Operation} {s : String} (h : o.newText? = some s) :
    o.action = .replaceTextValue s ∨
      ∃ e, o.action = .updatePrimitiveValue e ∧ e.kind = .string ∧ e.textOrEmpty = s := by
  obtain ⟨p, action⟩ := o
  cases action with
  | replaceTextValue r => exact Or.inl (congrArg _ (Option.some.inj h))
  | updatePrimitiveValue e =>
      obtain ⟨hkind, htext⟩ := Option.ite_none_right_eq_some.mp h
      exact Or.inr ⟨e, rfl, hkind, Option.some.inj htext⟩
  | _ => cases h

namespace Conversion

open Locate (Yields)

variable {c : Context} {s : String}

theorem convert_newText {o : Operation} (ho : o.newText? = some s) :
    Yields (·.newText? = some s) (convert c o) := by
  obtain ⟨p, action⟩ := o
  rcases Operation.newText?_cases ho with haction | ⟨e, haction, hkind, htext⟩
  · obtain rfl : action = _ := haction
    refine Yields.bind Context.resolveEditable_yields ?_
    rintro ⟨located, n⟩ _
    cases n with
    | primitive q => exact .ok rfl
    | _ => exact .error
  · obtain rfl : action = _ := haction
    refine Yields.bind Context.expectKind_yields fun _ _ =>
      Yields.bind Context.resolveEditable_yields ?_
    rintro ⟨located, n⟩ _
    exact Context.yields_unless fun _ => .ok ((if_pos hkind).trans (congrArg some htext))

end Conversion

namespace Batch

/-- An operation that changes one node in its place is carried out as it is. -/
theorem reduce_of_newText {file : Syntax.File} {o : Operation} {s : String}
    (ho : o.newText? = some s) : reduce file [o] = [o] := by
  obtain ⟨p, action⟩ := o
  rcases Operation.newText?_cases ho with haction | ⟨e, haction, _⟩ <;>
    obtain rfl : action = _ := haction
  · exact reduce_singleton rfl rfl rfl
  · exact reduce_singleton rfl rfl rfl

end Batch

/-- The operation is written over the literal. -/
theorem Scene.write_of_newText {s : Scene} {o : Operation} {value : String} {q : Primitive}
    (ho : o.newText? = some value)
    (hq : s.document.syntaxTree.resolve? o.pointer = some (.primitive q)) (d : Draft) :
    s.write d o = .ok (d.replace q.range (requote q value)) := by
  obtain ⟨p, action⟩ := o
  rcases Operation.newText?_cases ho with haction | ⟨e, haction, hkind, rfl⟩
  · obtain rfl : action = _ := haction
    show s.replaceText d p value = _
    rw [replaceText, node_eq hq]
    rfl
  · obtain rfl : action = _ := haction
    show s.updatePrimitive d p e = _
    rw [updatePrimitive, node_eq hq]
    show Except.ok (d.replace q.range (s.primitiveText q e)) = _
    rw [primitiveText, hkind]

namespace Writer

variable {uri text : String} {c : Configuration} {document : Document}

/-- A text that is put into a string literal stands there afterwards, in the quotes the literal had,
and everything else is as it was. A literal in back quotes takes no text with a back quote. -/
theorem parse_replaceText (h : Document.parse uri text c = .ok document) {o : Operation}
    {s : String} (ho : o.newText? = some s) {w : Writer}
    (hadd : (ofDocument document c).add o = .ok w) {p : Pointer}
    (hp : w.changes.map (·.pointer) = [p]) {q : Primitive}
    (hq : document.syntaxTree.resolve? p = some (.primitive q)) (hstring : q.isString = true)
    (hs : q.kind = .multiLineString → Lexer.backquote ∉ s.toList) :
    ∃ edits newText document' v, w.textEdits = .ok edits ∧
      TextEdit.applyAll text edits = .ok newText ∧
      Document.parse uri newText c = .ok document' ∧ v.kind = q.kind ∧
      Syntax.unquote v.text = s ∧ document'.syntaxTree.content =
        (document.syntaxTree.graft p (.primitive v)).content := by
  obtain ⟨_, o', hconvert, rfl⟩ := add_eq_ok_iff.mp hadd
  obtain rfl : o'.pointer = p := List.head_eq_of_cons_eq hp
  have ho' := Conversion.convert_newText ho _ hconvert
  rcases Document.exists_step h hq with ⟨_, hroot⟩ | ⟨r, last, parent, hpointer, hr, hmem, _⟩
  · cases hroot
  have hfile : ∀ g, parent ≠ .file g := by
    rintro g rfl
    cases Node.holds_of_mem_children hmem
  have hresolve : document.syntaxTree.resolve? o'.pointer = some (.primitive q) := hq
  have hpush := Scene.write_of_newText (s := Scene.ofOperations document c [o']) ho' hresolve .empty
  have hfull : (Scene.requote q s).toList ≠ [] := Scene.requote_ne_nil q s
  have hedits : textEdits ⟨document, c, [o']⟩ = .ok [⟨q.range, Scene.requote q s⟩] :=
    textEdits_of_push (Batch.reduce_of_newText ho') hpush (TextEdit.isDeletion_of_toList hfull)
  obtain ⟨_, _, _, _, hadmits, _⟩ :=
    Syntax.grafts_file (Document.written_file h) hr hmem nofun hfile
  obtain ⟨_, _, _, htext, hhead⟩ := hadmits.primitive.1.of_isString hstring
  rw [← htext] at hhead
  obtain ⟨newText, document', m, happly, hparse, ⟨v, rfl, hkind, hv⟩, hcontent⟩ :=
    Document.parse_in_place h hr hmem rfl (spells_requote hstring hhead hs)
      (P := fun m => ∃ v, m = Node.primitive v ∧ v.kind = q.kind ∧ Syntax.unquote v.text = s)
      fun us ts hus ⟨v, hts, hv⟩ => ⟨_, _, hus.primitive.2 v ts hts, rfl, v, rfl, hv⟩
  rw [← hpointer] at hcontent
  exact ⟨_, newText, document', v, hedits, happly, hparse, hkind, hv, hcontent⟩

/-- A string with a quote and a line feed for the first member of the collection. -/
def linesUpdate : Operation :=
  ⟨⟨["targets", "0", "terms", "0", "content", "0", "content", "0"]⟩,
    .updatePrimitiveValue ⟨.string, [], [.text ⟨"it's\nlong", none⟩], none, none⟩⟩

/-- A single update, in the place of a string of several lines. -/
def updatesLines (document : Document) (w : Writer) : Bool :=
  match w.changes.map (·.pointer) with
  | [p] => match document.syntaxTree.resolve? p with
    | some (.primitive q) => q.kind == .multiLineString
    | _ => false
  | _ => false

theorem parse_replaceText_lines :
    ∃ document w p q edits newText document' v,
      Document.parse "a.cds" "annotate E with @A : [ \x60old\x60, 'b' ];" .default =
        .ok document ∧
      (ofDocument document .default).add linesUpdate = .ok w ∧ w.changes.map (·.pointer) = [p] ∧
      document.syntaxTree.resolve? p = some (.primitive q) ∧ q.kind = .multiLineString ∧
      w.textEdits = .ok edits ∧
      TextEdit.applyAll "annotate E with @A : [ \x60old\x60, 'b' ];" edits = .ok newText ∧
      Document.parse "a.cds" newText .default = .ok document' ∧ v.kind = q.kind ∧
      Syntax.unquote v.text = "it's\nlong" ∧ document'.syntaxTree.content =
        (document.syntaxTree.graft p (.primitive v)).content := by
  have hchecked : ((Document.parse "a.cds" "annotate E with @A : [ \x60old\x60, 'b' ];"
      .default).toOption.any fun document =>
        ((ofDocument document .default).add linesUpdate).toOption.any fun w =>
          updatesLines document w) = true := by
    decide +kernel
  obtain ⟨document, hparse, hchecked⟩ := Locate.exists_ok_of_any hchecked
  obtain ⟨w, hadd, hchecked⟩ := Locate.exists_ok_of_any hchecked
  rw [updatesLines] at hchecked
  split at hchecked
  · next p hp =>
    split at hchecked
    · next q hq =>
      have hkind : q.kind = .multiLineString := beq_iff_eq.mp hchecked
      have hstring : q.isString = true := by
        rw [Primitive.isString, hkind]
        rfl
      obtain ⟨edits, newText, document', v, hedits, happly, hparse', hsame, hv, hcontent⟩ :=
        parse_replaceText hparse (o := linesUpdate) (s := "it's\nlong") rfl hadd hp hq hstring
          fun _ => by decide
      exact ⟨document, w, p, q, edits, newText, document', v, hparse, hadd, hp, hq, hkind, hedits,
        happly, hparse', hsame, hv, hcontent⟩
    · cases hchecked
  · cases hchecked

end Writer

end AnnotationEdit

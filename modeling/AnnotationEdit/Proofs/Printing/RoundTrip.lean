import AnnotationEdit.Proofs.Document
import AnnotationEdit.Proofs.Printing.Elements

/-!
# Printing and reading back

A printable annotation is read back from what is printed for it, whatever the indentation, the level
and the form it is written in, and a printed target is read back as that target.
-/

namespace AnnotationEdit

open AnnotationEdit.Tree (Element ElementKind)
open Lexer (Spells Break Anything)

/-- The target without ranges, the names of terms and types in it rewritten by `f`. -/
def Tree.Target.canonical (f : String → String) (t : Target) : Target :=
  ⟨t.name, none, none, t.terms.map (·.canonical f)⟩

namespace Printing

/-! ## Assignments -/

/-- The annotation says what the element says and is not taken for a group. -/
def AnnotationOf (e : Element) (a : Syntax.Annotation) : Prop :=
  (a.element .standard none).canonical id = e.canonical Vocabulary.standard.shorten ∧
    a.IsSingle .standard

theorem not_alias_of_isTerm {term : String} {p : Syntax.Path}
    (h : Printable.isTerm .standard term = true)
    (htext : p.text = Vocabulary.standard.shorten term)
    (hsegments : p.segments.map (·.text) = Text.split '.' (Vocabulary.standard.shorten term))
    (hlength : p.segments.length = 1) : Vocabulary.standard.isAlias p.text = false := by
  rw [Printable.isTerm, Bool.and_eq_true] at h
  obtain ⟨first, rest, hsplit, htoList⟩ := Lexer.split_eq_cons (Vocabulary.standard.shorten term)
  have hrest : rest = [] := by
    have hlen := congrArg List.length (hsegments.trans hsplit)
    rw [List.length_map, hlength, List.length_cons] at hlen
    exact List.length_eq_zero_iff.mp (by omega)
  rw [hsplit, hrest] at h
  have hfirst : Vocabulary.standard.shorten term = first := by
    rw [← String.toList_inj, htoList, hrest, Lexer.withDots, List.append_nil]
  rw [htext, hfirst]
  simpa using h.2

/-- An annotation without its `@`, from the text of its value. -/
theorem spells_headedTerm {p : Printer} (hp : IsStandard p) {e : Element} {es : List Element}
    {text? : Option String} (hkind : e.kind = ElementKind.annotation) (he : HasHead e)
    (hcontent : e.content = es.map .element) (h : SpellsOptional (ContentOf es) text?) :
    Spells Break (Printer.headed (p.term e) text?).toList (fun ts => ∀ sign,
      ∃ a : Syntax.Annotation, a.WrittenAs ts ∧ a.atSign = sign ∧ AnnotationOf e a) := by
  obtain ⟨term, hterm, hisTerm, hkeys, hqualifier⟩ := he
  have hdotted : Lexer.isDotted (p.vocabulary.shorten term) = true := by
    rw [hp.2]
    exact Vocabulary.isDotted_shorten (Bool.and_eq_true _ _ ▸ hisTerm).1
  refine (spells_compound hterm hdotted hqualifier h).imp ?_
  intro ts hts sign
  obtain ⟨a, ha, hsign, htext, hsegments, hq, hvalue⟩ := hts sign
  rw [hp.2] at htext hsegments
  refine ⟨a, ha, hsign, ?_, ?_⟩
  · rw [Syntax.Annotation.element, htext, annotationElement_canonical (splitTerm_shorten hisTerm),
      hq, hvalue, canonical_of_head hkind hkeys hterm hcontent]
  · intro hlength halias
    rw [not_alias_of_isTerm hisTerm htext hsegments hlength] at halias
    cases halias

theorem spells_bareTerm {p : Printer} (hp : IsStandard p) {e : Element}
    (he : e.isPrintable .standard = true) (level : Nat) :
    Spells Break (p.annotation .compound e level).toList (fun ts => ∀ sign,
      ∃ a : Syntax.Annotation, a.WrittenAs ts ∧ a.atSign = sign ∧ AnnotationOf e a) := by
  obtain ⟨kind, attributes, content, range, nameRange⟩ := e
  rw [Element.isPrintable, Bool.and_eq_true, beq_iff_eq] at he
  obtain ⟨rfl, he⟩ := he
  simp only [Printable.isEntry, Bool.and_eq_true] at he
  obtain ⟨⟨⟨hkeys, hterm⟩, hqualifier⟩, hcontent⟩ := he
  obtain ⟨es, hes, hvalue⟩ := spells_content hp content level hcontent
  exact spells_headedTerm hp rfl (hasHead_of hkeys hterm hqualifier) hes hvalue

def SpellsAssignments (text : String) (es : List Element) : Prop :=
  Spells Break text.toList (fun ts => ∃ as compound,
    Syntax.AssignmentsWrittenAs .standard as compound ts ∧
    (as.flatMap (Syntax.Assignment.elements .standard)).map (·.canonical id) =
      es.map (·.canonical Vocabulary.standard.shorten))

theorem spells_signed {text : String} {e : Element}
    (h : Spells Break text.toList (fun ts => ∀ sign,
      ∃ a : Syntax.Annotation, a.WrittenAs ts ∧ a.atSign = sign ∧ AnnotationOf e a)) :
    SpellsAssignments ("@" ++ text) [e] := by
  rw [SpellsAssignments, String.toList_append]
  refine (h.mark '@' (by decide)).imp ?_
  rintro ts ⟨sign, us, rfl, hsign, hus⟩
  obtain ⟨a, ha, hat, hcanonical, hsingle⟩ := hus (some sign.range)
  have hwritten : (Syntax.Assignment.single a).WrittenAs .standard (some sign.range) us :=
    ⟨ha, hat, hsingle⟩
  have hassignments := Syntax.AssignmentsWrittenAs.bare hsign hwritten .nil
  rw [List.append_nil] at hassignments
  refine ⟨[.single a], none, hassignments, ?_⟩
  rw [List.flatMap_singleton, Syntax.Assignment.elements, List.map_singleton, hcanonical,
    List.map_singleton]

theorem spells_bare {p : Printer} (hp : IsStandard p) {e : Element}
    (he : e.isPrintable .standard = true) (level : Nat) :
    SpellsAssignments (p.annotation .bare e level) [e] := by
  have htext : p.annotation .bare e level = "@" ++ p.annotation .compound e level := by
    simp only [Printer.annotation, Printer.annotationHead]
    cases p.annotationValue e level with
    | none => rfl
    | some text => simp [Printer.headed, String.append_assoc]
  rw [htext]
  exact spells_signed (spells_bareTerm hp he level)

theorem elements_of_singles {es : List Element} {as : List Syntax.Assignment}
    (h : List.Forall₂ (fun e a => ∃ b, a = .single b ∧ AnnotationOf e b) es as) :
    (as.flatMap (Syntax.Assignment.elements .standard)).map (·.canonical id) =
      es.map (·.canonical Vocabulary.standard.shorten) := by
  induction h with
  | nil => rfl
  | cons h _ ih =>
      obtain ⟨b, rfl, hb⟩ := h
      rw [List.flatMap_cons, List.map_append, ih, Syntax.Assignment.elements, List.map_singleton,
        hb.1]
      rfl

theorem spells_list {p : Printer} (hp : IsStandard p) {es : List Element}
    (hes : ∀ e ∈ es, e.isPrintable .standard = true) (level level' : Nat) :
    SpellsAssignments
      ("@" ++ p.block "(" ")" (es.map fun e => p.annotation .compound e level') level) es := by
  have hitems : Lexer.Items (Syntax.Assignment.WrittenAs .standard none)
      (es.map fun e => p.annotation .compound e level')
      (es.map fun e a => ∃ b, a = .single b ∧ AnnotationOf e b) := by
    induction es with
    | nil => exact .nil
    | cons e es ih =>
        refine .cons ?_ (ih fun x hx => hes x (List.mem_cons_of_mem _ hx))
        refine (spells_bareTerm hp (hes e List.mem_cons_self) level').imp ?_
        intro ts hts
        obtain ⟨a, ha, hsign, haof⟩ := hts none
        exact ⟨.single a, ⟨ha, hsign, haof.2⟩, a, rfl, haof⟩
  have hblock := Lexer.spells_block hp.1 hitems '(' ')' (by decide) (by decide) level
  rw [SpellsAssignments, String.toList_append]
  refine ((hblock.mark '@' (by decide)).mono (fun _ _ => trivial) ?_)
  rintro ts ⟨sign, us, rfl, hsign, opening, closing, vs, as, rfl, hopening, hclosing, hvs, has⟩
  have hwritten := Syntax.AssignmentsWrittenAs.compound hsign hopening hvs hclosing .nil
  rw [List.append_nil] at hwritten
  exact ⟨as, _, hwritten, elements_of_singles (Lexer.forall₂_of_map has)⟩

theorem spells_parenthesized {p : Printer} (hp : IsStandard p) {e : Element}
    (he : e.isPrintable .standard = true) (level : Nat) :
    SpellsAssignments ("@(" ++ p.annotation .compound e level ++ ")") [e] := by
  have hclosing : Spells Break [')'] _ := Lexer.spells_mark (by decide)
  rw [SpellsAssignments, String.toList_append, String.toList_append, List.append_assoc]
  refine ((((spells_bareTerm hp he level).thenBreak hclosing (by decide)).mark
    '(' (by decide)).mark
    '@' (by decide)).imp ?_
  rintro ts ⟨sign, ts₁, rfl, hsign, opening, ts₂, rfl, hopening, us, ts₃, rfl, hus, closing, rfl,
    hclosing⟩
  obtain ⟨a, ha, hat, haof⟩ := hus none
  have hitems : Syntax.commaSeparated (Syntax.Assignment.WrittenAs .standard none) [.single a] us :=
    Or.inl ⟨⟨ha, hat, haof.2⟩, rfl⟩
  have hwritten := Syntax.AssignmentsWrittenAs.compound hsign hopening hitems hclosing .nil
  exact ⟨_, _, hwritten, elements_of_singles (.cons ⟨a, rfl, haof⟩ .nil)⟩

/-- The annotations of a target as the printer writes them. -/
theorem spells_assignments {p : Printer} (hp : IsStandard p) {es : List Element}
    (hes : ∀ e ∈ es, e.isPrintable .standard = true) (level : Nat) :
    SpellsAssignments (p.assignments es level) es := by
  unfold Printer.assignments
  split
  · next e => exact spells_bare hp (hes e List.mem_cons_self) level
  · exact spells_list hp hes level (level + 1)

/-! ## Statements -/

/-- The text after `annotate Entity with `. -/
def SpellsBody (entity : String) (text : List Char) (R : Syntax.Statement → Prop) : Prop :=
  Spells Anything text (fun ts => ∃ as compound members us bs closing,
    ts = us ++ (bs ++ [closing]) ∧
    Syntax.AssignmentsWrittenAs .standard as compound us ∧
    Syntax.blockWrittenAs .standard entity members bs ∧ closing.IsMark ";" ∧
    ∀ path : Syntax.Path, path.text = entity → R ⟨path, as, compound, members⟩)

theorem spells_statement {entity : String} {text : List Char} {R : Syntax.Statement → Prop}
    (hentity : Lexer.isDotted entity = true) (h : SpellsBody entity text R) :
    Spells Anything ("annotate ".toList ++ (entity.toList ++ (" with ".toList ++ text)))
      (fun ts => ∃ s : Syntax.Statement, s.WrittenAs .standard ts ∧ R s) := by
  have hspace : ∀ cs rest : List Char, Lexer.EndsWord (' ' :: cs ++ rest) := by
    intro cs rest c hc
    obtain rfl : ' ' = c := by simpa using hc
    decide
  have hwith := (Lexer.spells_keyword (by decide : Lexer.isWord "with".toList = true)
    (by decide)).append (h.blank ' ' (by decide)) fun rest _ => hspace text rest
  have hname := (Lexer.spells_path .entity hentity).append (hwith.blank ' ' (by decide))
    fun rest _ => hspace _ rest
  have hall := (Lexer.spells_keyword (by decide : Lexer.isWord "annotate".toList = true)
    (by decide)).append (hname.blank ' ' (by decide)) fun rest _ => hspace _ rest
  change Spells Anything ("annotate".toList ++ ' ' :: (entity.toList ++ ' ' :: ("with".toList ++
    ' ' :: text))) _
  refine hall.imp ?_
  rintro ts ⟨ts₁, ts₂, rfl, ⟨first, rfl, hfirst⟩, us, ts₃, rfl, ⟨path, hus, htext, _⟩, ts₄, ts₅,
    rfl,
    ⟨word, rfl, hword⟩, as, compound, members, vs, bs, closing, rfl, hvs, hbs, hclosing, hR⟩
  refine ⟨⟨path, as, compound, members⟩, ?_, hR path htext⟩
  exact ⟨first, us, [word], vs, bs, closing, rfl, hfirst, hus, Or.inr ⟨word, rfl, hword⟩, hvs,
    by rw [htext]; exact hbs, hclosing⟩

def SaysTarget (t : Tree.Target) (s : Syntax.Statement) : Prop :=
  (s.targets.map (Syntax.Target.abstraction .standard)).map (·.canonical id) =
    [t.canonical Vocabulary.standard.shorten]

theorem spellsBody_entity {t : Tree.Target} {text : String}
    (h : SpellsAssignments text t.terms) :
    SpellsBody t.name (text.toList ++ [';']) (SaysTarget t) := by
  have hclosing : Spells Anything [';'] _ := Lexer.spells_mark (by decide)
  refine (h.thenBreak hclosing (by decide)).imp ?_
  rintro ts ⟨us, vs, rfl, ⟨as, compound, hus, has⟩, closing, rfl, hclosing⟩
  refine ⟨as, compound, none, us, [], closing, rfl, hus, rfl, hclosing, ?_⟩
  intro path hpath
  rw [SaysTarget, Syntax.Statement.targets, Syntax.Statement.entityTargets,
    if_pos (by rw [Option.isNone_none, Bool.or_true])]
  simp only [Option.getD_none, List.append_nil, List.map_singleton]
  rw [Tree.Target.canonical, Tree.Target.canonical]
  simp only [Syntax.Target.abstraction, Syntax.Parser.targetOf, has, hpath]

theorem spellsBody_member {p : Printer} (hp : IsStandard p) {t : Tree.Target}
    {entity member text : String} (hmember : Lexer.isName member = true)
    (hname : t.name = entity ++ "/" ++ member)
    (h : SpellsAssignments text t.terms) :
    SpellsBody entity ('\x7b' :: '\n' :: ((p.indent 1).toList ++ (member.toList ++
      (' ' :: (text.toList ++
      [';', '\n', '\x7d', ';']))))) (SaysTarget t) := by
  have hclosing : Spells Anything [';'] _ := Lexer.spells_mark (by decide)
  have hend := ((hclosing.mark '\x7d' (by decide)).blank '\n' (by decide)).mark ';' (by decide)
  have hassignments := (h.thenBreak hend (by decide)).blank ' ' (by decide)
  have hmember' := (Lexer.spells_name .element hmember).append hassignments fun rest _ c hc => by
    obtain rfl : ' ' = c := by simpa using hc
    decide
  have hall := ((hmember'.blanks _ (Lexer.allBlank_times hp.1 1)).blank '\n' (by decide)).mark
    '\x7b'
    (by decide)
  refine hall.imp ?_
  rintro ts ⟨opening, ts₁, rfl, hopening, ts₂, ts₃, rfl, ⟨name, rfl, hrole, htext⟩, us, ts₄, rfl,
    ⟨as, compound, hus, has⟩, semicolon, ts₅, rfl, hsemicolon, brace, ts₆, rfl, hbrace, closing,
    rfl,
    hclosing⟩
  let m := Syntax.Parser.targetOf .element (entity ++ "/" ++ name.text) name.range (as, compound)
  refine ⟨[], none, some [m], [], opening :: ((name :: (us ++ [semicolon])) ++ [brace]), closing,
    ?_,
    .nil, ?_, hclosing, ?_⟩
  · simp
  · refine ⟨opening, name :: (us ++ [semicolon]), brace, rfl, hopening, hbrace, ?_⟩
    refine ⟨name :: (us ++ [semicolon]), [], (List.append_nil _).symm, ?_, rfl⟩
    exact ⟨⟨name.text, name.range⟩, name, us, semicolon, as, compound, rfl, ⟨hrole, rfl⟩, hus,
      hsemicolon, rfl⟩
  · intro path hpath
    rw [SaysTarget, Syntax.Statement.targets, Syntax.Statement.entityTargets, if_neg (by simp)]
    simp only [Option.getD_some, List.nil_append, List.map_singleton]
    rw [Tree.Target.canonical, Tree.Target.canonical]
    simp only [m, Syntax.Target.abstraction, Syntax.Parser.targetOf, has, htext, hname]

/-! ## Reading back -/

/-- The text is read as a file with nothing but the targets. -/
def Says (c : Configuration) (uri text : String) (targets : List Tree.Target) : Prop :=
  ∃ d, Document.parse uri text c = .ok d ∧ d.tree.references = [] ∧
    d.tree.targets.map (·.canonical id) = targets.map (·.canonical c.aliases.shorten)

theorem says_of_spells {c : Configuration} (hc : c.aliases = .standard) (uri : String)
    {text : String}
    {t : Tree.Target}
    (h : Spells Anything text.toList
      (fun ts => ∃ s : Syntax.Statement, s.WrittenAs .standard ts ∧ SaysTarget t s)) :
    Says c uri text [t] := by
  obtain ⟨ts, ⟨s, hs, hsays⟩, hcode, hrun⟩ := h Position.origin [] trivial
  have htokens : Lexer.tokenize text = .ok (ts.map Token.plain) := by
    rw [Lexer.tokenize, ← List.append_nil text.toList, hrun]
    rw [Lexer.tokenizeFrom.eq_def]
    simp [Except.map]
  have hcode' : ts.map Token.plain = (ts.map Token.plain).filter Token.isCode := by
    refine (List.filter_eq_self.mpr ?_).symm
    intro t ht
    obtain ⟨u, hu, rfl⟩ := List.mem_map.mp ht
    exact hcode u hu
  have hitems : Syntax.consecutive (Syntax.Item.WrittenAs c.aliases) [.inr s] ts := by
    rw [hc]
    exact ⟨ts, [], (List.append_nil ts).symm, hs, rfl⟩
  refine ⟨_, Document.parse_eq_ok_iff.mpr ⟨_, _, _, htokens, hitems, hcode', rfl⟩, rfl, ?_⟩
  rw [hc]
  simpa [Syntax.File.abstraction, Document.fileOf, Syntax.targetsOf, SaysTarget] using hsays

theorem isStandard_ofConfiguration {c : Configuration} (hc : c.aliases = .standard) :
    IsStandard (Printer.ofConfiguration c) := by
  refine ⟨?_, hc⟩
  show Text.allBlank c.unit.toList = true
  unfold Configuration.unit
  split
  · exact Lexer.allBlank_times (by decide) c.size
  · decide

end Printing

open Printing

/-- A target whose annotations can be written and read back. -/
def Tree.Target.isPrintable (v : Vocabulary) (t : Target) : Bool :=
  Lexer.isDotted t.entity && t.member?.all Lexer.isName && t.terms.all (·.isPrintable v)

theorem Text.eq_of_cutFirst? {sep : Char} : ∀ {cs front back : List Char},
    cutFirst? sep cs = some (front, back) → cs = front ++ sep :: back
  | [], _, _, h => by cases h
  | c :: cs, front, back, h => by
      rw [cutFirst?] at h
      split at h
      · next hc =>
        obtain ⟨rfl, rfl⟩ := Prod.mk.inj (Option.some.inj h)
        rw [hc]
        rfl
      · obtain ⟨⟨front', back'⟩, hcut, heq⟩ := Option.map_eq_some_iff.mp h
        obtain ⟨rfl, rfl⟩ := Prod.mk.inj heq
        rw [eq_of_cutFirst? hcut]
        rfl

theorem Tree.Target.name_eq (t : Target) :
    (t.member? = none ∧ t.name = t.entity) ∨
      ∃ m, t.member? = some m ∧ t.name = t.entity ++ "/" ++ m := by
  unfold member? entity
  cases hsplit : Text.splitOnce? '/' t.name with
  | none => exact Or.inl ⟨rfl, rfl⟩
  | some parts =>
      obtain ⟨entity, m⟩ := parts
      refine Or.inr ⟨m, rfl, ?_⟩
      rw [Text.splitOnce?, Option.map_eq_some_iff] at hsplit
      obtain ⟨⟨front, back⟩, hcut, heq⟩ := hsplit
      obtain ⟨rfl, rfl⟩ := Prod.mk.inj heq
      rw [← String.toList_inj, Text.eq_of_cutFirst? hcut]
      simp

/-- The text after `annotate Entity with ` and before the semicolon is read as assignments. -/
theorem says_assignments {c : Configuration} (hc : c.aliases = .standard) (uri : String)
    {entity text : String} {terms : List Element} (hentity : Lexer.isDotted entity = true)
    (h : SpellsAssignments text terms) :
    Says c uri ("annotate " ++ entity ++ " with " ++ text ++ ";")
      [⟨entity, none, none, terms⟩] := by
  refine says_of_spells hc uri ?_
  have hstatement :=
    spells_statement hentity (spellsBody_entity (t := ⟨entity, none, none, terms⟩) h)
  simpa [String.toList_append] using hstatement

theorem spells_target {c : Configuration} (hc : c.aliases = .standard) {t : Tree.Target}
    (ht : t.isPrintable .standard = true) :
    Spells Anything ((Printer.ofConfiguration c).target t).toList
      (fun ts => ∃ s : Syntax.Statement, s.WrittenAs .standard ts ∧ SaysTarget t s) := by
  have hp := isStandard_ofConfiguration hc
  simp only [Tree.Target.isPrintable, Bool.and_eq_true, List.all_eq_true] at ht
  obtain ⟨⟨hentity, hmember⟩, hterms⟩ := ht
  unfold Printer.target
  rcases t.name_eq with ⟨hnone, hname⟩ | ⟨m, hsome, hname⟩
  · rw [hnone, ← hname]
    rw [← hname] at hentity
    have h := spells_statement hentity
      (spellsBody_entity (spells_assignments hp hterms 0))
    simpa [String.toList_append] using h
  · rw [hsome] at hmember ⊢
    have hisName : Lexer.isName m = true := by simpa using hmember
    have h := spells_statement hentity
      (spellsBody_member hp hisName hname (spells_assignments hp hterms 1))
    simpa [String.toList_append, afterLast_of_isName hisName, Token.openBrace, Token.closeBrace]
      using h

/-- A printed target is read back. -/
theorem says_target {c : Configuration} (hc : c.aliases = .standard) (uri : String)
    {t : Tree.Target} (ht : t.isPrintable .standard = true) :
    Says c uri ((Printer.ofConfiguration c).target t) [t] :=
  says_of_spells hc uri (spells_target hc ht)

/-- An annotation that has a record with one annotation as its value. -/
def host (term : String) (e : Element) : Element :=
  ⟨ElementKind.annotation, [(Tree.termKey, ⟨Tree.termKey, term, none⟩)],
    [.element ⟨.record, [], [.element e], none, none⟩], none, none⟩

theorem spells_inline {text : String} {e : Element} (h : SpellsEntry text (StandsFor .standard e)) :
    SpellsValue (Token.openBrace ++ text ++ Token.closeBrace)
      (ValueOf ⟨.record, [], [.element e], none, none⟩) := by
  have hclosing : Spells Break ['\x7d'] _ := Lexer.spells_mark (by decide)
  rw [SpellsValue, String.toList_append, String.toList_append, List.append_assoc]
  refine ((h.thenBreak hclosing (by decide)).mark '\x7b' (by decide)).imp ?_
  rintro ts ⟨opening, ts₁, rfl, hopening, us, ts₂, rfl, ⟨entry, hentry, hstands⟩, closing, rfl,
    hclosing⟩
  have hentries : List.Forall₂ (StandsFor .standard) [e] [entry] := .cons hstands .nil
  refine ⟨.record ⟨⟨opening.range.start, closing.range.stop⟩, [entry]⟩, ?_, ?_, ?_⟩
  · rw [Syntax.Value.WrittenAs]
    exact ⟨opening, closing, us, rfl, hopening, hclosing, rfl,
      (Syntax.entriesWrittenAs_iff [entry] us).mpr (Or.inl ⟨hentry, rfl⟩)⟩
  · rw [Syntax.Value.element, record_canonical hentries]
    rfl
  · rw [Syntax.Value.isPromoted, Syntax.Record.valueEntry?, Syntax.property?_eq_none
      fun x hx => (not_named_of_standsFor hentries x hx).2]
    rfl

theorem spells_host {p : Printer} (hp : IsStandard p) {e : Element}
    (he : e.isPrintable .standard = true) (level : Nat) :
    SpellsAssignments ("@Host : " ++ (Token.openBrace ++ p.annotation .embedded e level ++
      Token.closeBrace)) [host "Host" e] := by
  have hentry : SpellsEntry (p.annotation .embedded e level) (StandsFor .standard e) := by
    obtain ⟨kind, attributes, content, range, nameRange⟩ := e
    rw [Element.isPrintable, Bool.and_eq_true, beq_iff_eq] at he
    obtain ⟨rfl, he⟩ := he
    have h := spells_entry hp _ level he
    rwa [if_pos rfl, Printer.value] at h
  have hname : Lexer.isName "Host" = true := by decide +kernel
  have hhead : HasHead (host "Host" e) :=
    ⟨"Host", rfl, Printable.isTerm_of_isName hname (by decide +kernel), rfl, rfl⟩
  have hvalue : SpellsOptional (ContentOf [⟨.record, [], [.element e], none, none⟩])
      (some (Token.openBrace ++ p.annotation .embedded e level ++ Token.closeBrace)) :=
    (spells_inline hentry).imp fun ts ⟨t, ht, hof⟩ => ⟨t, ht, contentOf_value hof⟩
  have h := spells_signed (spells_headedTerm hp rfl hhead rfl hvalue)
  have hterm : p.term (host "Host" e) = "Host" := by
    show p.vocabulary.shorten "Host" = "Host"
    exact Vocabulary.shorten_of_isName _ hname
  rw [hterm, Printer.headed, ← String.append_assoc] at h
  exact h

/-- Printing and reading are inverse: a printable annotation in each of the three forms, and a
printable target, is read back as what was printed, its terms and types with their namespaces
shortened. -/
theorem parse_print {c : Configuration} (hc : c.aliases = .standard) (uri : String) :
    (∀ (e : Element) (level : Nat) (entity : String), e.isPrintable .standard = true →
      Lexer.isDotted entity = true →
        Says c uri ("annotate " ++ entity ++ " with " ++
          Printer.annotation (Printer.ofConfiguration c) .bare e level ++ ";")
          [⟨entity, none, none, [e]⟩] ∧
        Says c uri ("annotate " ++ entity ++ " with " ++ ("@(" ++
          Printer.annotation (Printer.ofConfiguration c) .compound e level ++ ")") ++ ";")
          [⟨entity, none, none, [e]⟩] ∧
        Says c uri ("annotate " ++ entity ++ " with " ++ ("@Host : " ++ (Token.openBrace ++
          Printer.annotation (Printer.ofConfiguration c) .embedded e level ++
            Token.closeBrace)) ++ ";")
          [⟨entity, none, none, [host "Host" e]⟩]) ∧
      ∀ t : Tree.Target, t.isPrintable .standard = true →
        Says c uri ((Printer.ofConfiguration c).target t) [t] := by
  have hp := isStandard_ofConfiguration hc
  refine ⟨?_, fun t => says_target hc uri⟩
  intro e level entity he hentity
  refine ⟨says_assignments hc uri hentity (spells_bare hp he level), ?_, ?_⟩
  · exact says_assignments hc uri hentity (spells_parenthesized hp he level)
  · exact says_assignments hc uri hentity (spells_host hp he level)

/-- An annotation with a qualifier, a value and an annotation of its own. -/
def sampleColumns : Element :=
  let text (kind : ElementKind) (s : String) : Element := ⟨kind, [], [.text ⟨s, none⟩], none, none⟩
  let property (name : String) (value : Element) : Element :=
    ⟨.propertyValue, [("Property", ⟨"Property", name, none⟩)], [.element value], none, none⟩
  let column : Element := ⟨.record,
    [("Type", ⟨"Type", "com.sap.vocabularies.UI.v1.DataField", none⟩)],
    [.element (property "Value" (text .path "author.name")),
      .element (property "Label" (text .string "the author's name"))], none, none⟩
  ⟨ElementKind.annotation,
    [("Term", ⟨"Term", "com.sap.vocabularies.UI.v1.LineItem", none⟩),
      ("Qualifier", ⟨"Qualifier", "Main", none⟩)],
    [.element ⟨.collection, [], [.element column, .element (text .decimal "-1.5")], none, none⟩,
      .element ⟨ElementKind.annotation, [("Term", ⟨"Term", "UI.Importance", none⟩)],
        [.element (text .enumMember "High")], none, none⟩], none, none⟩

theorem parse_print_columns :
    Says .default "a.cds" ("annotate " ++ "my.Books" ++ " with " ++
      Printer.annotation (Printer.ofConfiguration .default) .bare sampleColumns 2 ++ ";")
      [⟨"my.Books", none, none, [sampleColumns]⟩] ∧
    Says .default "a.cds" ((Printer.ofConfiguration .default).target
      ⟨"my.Books/title", none, none, [sampleColumns, sampleColumns]⟩)
      [⟨"my.Books/title", none, none, [sampleColumns, sampleColumns]⟩] :=
  ⟨((parse_print rfl "a.cds").1 sampleColumns 2 "my.Books" (by decide +kernel)
      (by decide +kernel)).1,
    (parse_print rfl "a.cds").2 _ (by decide +kernel)⟩

end AnnotationEdit

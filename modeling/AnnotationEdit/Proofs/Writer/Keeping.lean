import AnnotationEdit.Proofs.Writer.Commuting
import AnnotationEdit.Proofs.Writer.Sparing

/-!
# Tokens that insertions keep

Every edit for a batch of insertions leaves a token alone or writes it again, unless an insertion
exposes the token (`Writer.keeps_tokens`). This holds of comments as of all other tokens: a comment
is lost between the brackets of a list that gets its first member, and one on several lines is
written with other blanks where its lines move in.
-/

namespace AnnotationEdit

open Syntax (Node)

/-! ## Texts in other texts -/

namespace Text

theorem infix_joined (sep : String) {s : String} : ∀ {l : List String}, s ∈ l →
    s.toList <:+: (joined sep l).toList
  | [t], h => by
      obtain rfl := List.mem_singleton.mp h
      exact List.infix_rfl
  | t :: u :: l, h => by
      rw [joined, String.toList_append, String.toList_append]
      · rcases List.mem_cons.mp h with rfl | h
        · exact ((List.prefix_append _ _).trans (List.prefix_append _ _)).isInfix
        · exact (infix_joined sep h).trans (List.suffix_append _ _).isInfix
      · exact List.cons_ne_nil u l

/-- What has no separator and starts a text starts its first piece. -/
theorem exists_first_piece {sep : Char} : ∀ {cs ds : List Char}, sep ∉ cs → cs <+: ds →
    ∃ p ps, pieces sep ds = p :: ps ∧ cs <+: p
  | [], ds, _, _ => by
      obtain ⟨p, ps, hpieces, _⟩ := Lexer.pieces_eq_cons sep ds
      exact ⟨p, ps, hpieces, List.nil_prefix⟩
  | c :: cs, ds, hcs, h => by
      obtain ⟨hne, hcs⟩ := List.ne_and_not_mem_of_not_mem_cons hcs
      obtain ⟨rest, rfl⟩ := h
      obtain ⟨p, ps, hpieces, hp⟩ := exists_first_piece hcs (List.prefix_append cs rest)
      exact ⟨c :: p, ps, pieces_cons (Ne.symm hne) hpieces, (List.prefix_cons_inj c).mpr hp⟩

/-- What has no separator stands in one of the pieces. -/
theorem exists_piece {sep : Char} {cs : List Char} (hcs : sep ∉ cs) :
    ∀ {ds : List Char}, cs <:+: ds → ∃ p ∈ pieces sep ds, cs <:+: p
  | [], h => ⟨[], List.mem_singleton_self _, h⟩
  | d :: ds, h => by
      rcases List.infix_cons_iff.mp h with hprefix | hinfix
      · obtain ⟨p, ps, hpieces, hp⟩ := exists_first_piece hcs hprefix
        exact ⟨p, hpieces ▸ List.mem_cons_self, hp.isInfix⟩
      · obtain ⟨p, hp, hinfix⟩ := exists_piece hcs hinfix
        by_cases hd : d = sep
        · subst hd
          rw [pieces_sep]
          exact ⟨p, List.mem_cons_of_mem _ hp, hinfix⟩
        · obtain ⟨q, qs, hpieces, _⟩ := Lexer.pieces_eq_cons sep ds
          rw [pieces_cons hd hpieces]
          rw [hpieces] at hp
          rcases List.mem_cons.mp hp with rfl | hp
          · exact ⟨d :: p, List.mem_cons_self, hinfix.trans (List.suffix_cons d p).isInfix⟩
          · exact ⟨p, List.mem_cons_of_mem _ hp, hinfix⟩

end Text

/-- A line that moves in is still there. -/
theorem infix_shiftLine (unit : List Char) (n : Nat) (line : List Char) :
    line <:+: shiftLine unit n line := by
  show line <:+: if Text.allBlank line then line else (List.replicate n unit).flatten ++ line
  split
  · exact List.infix_rfl
  · exact (List.suffix_append _ line).isInfix

/-- What stands on one line is still there after the lines have moved in. -/
theorem infix_reindent {cs text : List Char} (hcs : '\n' ∉ cs) (h : cs <:+: text) (unit : String)
    (n : Nat) : cs <:+: (reindent text unit n).toList := by
  obtain ⟨p, hp, hinfix⟩ := Text.exists_piece hcs h
  obtain ⟨q, qs, hpieces, _⟩ := Lexer.pieces_eq_cons '\n' text
  rw [hpieces] at hp
  have hline : ∃ line ∈ q :: qs.map (shiftLine unit.toList n), cs <:+: line := by
    rcases List.mem_cons.mp hp with rfl | hp
    · exact ⟨p, List.mem_cons_self, hinfix⟩
    · exact ⟨_, List.mem_cons_of_mem _ (List.mem_map_of_mem hp),
        hinfix.trans (infix_shiftLine _ n p)⟩
  obtain ⟨line, hline, hinfix⟩ := hline
  have hjoined := Text.infix_joined "\n" (List.mem_map_of_mem (f := String.ofList) hline)
  rw [String.toList_ofList] at hjoined
  rw [reindent, hpieces]
  exact hinfix.trans hjoined

theorem Printer.infix_block {printer : Printer} {opening closing s : String} {entries : List String}
    {level : Nat} (h : s ∈ entries) :
    s.toList <:+: (printer.block opening closing entries level).toList := by
  have hne : ¬ entries.isEmpty = true := by
    rw [List.isEmpty_iff]
    exact List.ne_nil_of_mem h
  have hentry := Text.infix_joined ",\n"
    (List.mem_map_of_mem (f := (printer.indent (level + 1) ++ ·)) h)
  rw [String.toList_append] at hentry
  rw [block, if_neg hne]
  simp only [String.toList_append]
  refine ((List.suffix_append _ _).isInfix.trans hentry).trans ?_
  refine List.IsInfix.trans ?_ (List.prefix_append _ _).isInfix
  refine List.IsInfix.trans ?_ (List.prefix_append _ _).isInfix
  refine List.IsInfix.trans ?_ (List.prefix_append _ _).isInfix
  exact (List.suffix_append _ _).isInfix

/-! ## Edits for a batch -/

theorem mem_of_mem_eraseReps {l : List Nat} {n : Nat} (h : n ∈ l.eraseReps) : n ∈ l := by
  have hloop : ∀ (l acc : List Nat) (m : Nat), n ∈ List.eraseRepsBy.loop (· == ·) m l acc →
      n ∈ m :: l ∨ n ∈ acc := by
    intro l
    induction l with
    | nil =>
        intro acc m h
        rw [List.eraseRepsBy.loop, List.mem_reverse] at h
        rcases List.mem_cons.mp h with rfl | h
        · exact Or.inl List.mem_cons_self
        · exact Or.inr h
    | cons a l ih =>
        intro acc m h
        rw [List.eraseRepsBy.loop] at h
        split at h
        · rcases ih acc m h with h | h
          · exact Or.inl (List.Sublist.subset ((List.sublist_cons_self a l).cons_cons m) h)
          · exact Or.inr h
        · rcases ih (m :: acc) a h with h | h
          · exact Or.inl (List.mem_cons_of_mem m h)
          · rcases List.mem_cons.mp h with rfl | h
            · exact Or.inl List.mem_cons_self
            · exact Or.inr h
  cases l with
  | nil => exact h
  | cons m l => exact (hloop l [] m h).resolve_right List.not_mem_nil

/-- The edit leaves the token alone, or writes it again. -/
def TextEdit.Keeps (e : TextEdit) (t : Token) : Prop :=
  e.range.Avoids t.range ∨
    e.range.contains t.range = true ∧ t.text.toList <:+: e.newText.toList

namespace Draft.Sparing

variable {s : Scene} {exposed : Token → Prop} {d : Draft} {t : Token}

/-- A record around a value has the tokens of the value, apart from the exposed ones. -/
theorem keeps_promotionEdit (h : d.Sparing s exposed) (hs : s.Parsed) {m : Pointer × Promotion}
    (hm : m ∈ d.promotions) (ht : t ∈ s.tokens.tokens.toList) (hexposed : ¬ exposed t) :
    (s.promotionEdit m.2).1.Keeps t := by
  obtain ⟨hhead, hvalue⟩ := h.promotions m hm
  rw [Scene.promotionEdit]
  cases hr : m.2.value with
  | none => exact Or.inl (hhead.avoids_empty ht)
  | some r =>
      obtain ⟨hwithin, hlines⟩ := hvalue r hr
      obtain ⟨hstart, hstop⟩ := hs.sorted.splits_of_within hwithin
      refine (hstart.avoids_or_contains hstop ht).imp_right fun hin => ⟨hin, ?_⟩
      have hline : t.range.stop.line ≤ t.range.start.line :=
        Nat.le_of_not_lt fun hspans => hexposed (hlines t ht hin hspans)
      obtain ⟨uri, text, config, hparse, _⟩ := id hs
      have hslice := Document.infix_slice hparse hwithin ht hin
      have hnewline := Document.newline_not_mem_text hparse ht hline
      have hentry := infix_reindent hnewline hslice s.printer.indentUnit 1
      show t.text.toList <:+: (s.promotionText m.2).toList
      rw [Scene.promotionText, hr]
      refine List.IsInfix.trans ?_ (Printer.infix_block List.mem_cons_self)
      rw [String.toList_append]
      exact hentry.trans (List.suffix_append _ _).isInfix

/-- What is written in the end keeps all tokens but the exposed ones, and only adds. -/
theorem keeps (h : d.Sparing s exposed) (hs : s.Parsed) (ht : t ∈ s.tokens.tokens.toList)
    (hexposed : ¬ exposed t) : ∀ e ∈ (s.complete d).edits, e.1.Keeps t := by
  rw [Scene.edits_complete h.deletions, Scene.plainEdits, Scene.notedEdits]
  refine List.forall_mem_append.mpr ⟨List.forall_mem_append.mpr
    ⟨fun e he => Or.inl ((h.edits e he).2 t ht), List.forall_mem_append.mpr
      ⟨List.forall_mem_map.mpr fun l hl => ?_, List.forall_mem_map.mpr fun m hm => ?_⟩⟩,
    List.forall_mem_map.mpr fun line hline => ?_⟩
  · exact Or.inl (((h.emptyLists l hl).2 t ht).resolve_right hexposed)
  · exact h.keeps_promotionEdit hs hm ht hexposed
  · have hmem := List.mem_mergeSort.mp (mem_of_mem_eraseReps (List.mem_filter.mp hline).1)
    exact Or.inl ((h.shiftedLines line hmem t ht).resolve_right hexposed)

theorem not_isDeletion (h : d.Sparing s exposed) :
    ∀ e ∈ (s.complete d).edits, e.1.isDeletion = false := by
  rw [Scene.edits_complete h.deletions, Scene.plainEdits, Scene.notedEdits]
  refine List.forall_mem_append.mpr ⟨List.forall_mem_append.mpr
    ⟨fun e he => (h.edits e he).1, List.forall_mem_append.mpr
      ⟨List.forall_mem_map.mpr fun l hl => ?_, List.forall_mem_map.mpr fun m _ => ?_⟩⟩,
    List.forall_mem_map.mpr fun line _ => TextEdit.isDeletion_insert _ _⟩
  · exact TextEdit.isDeletion_of_toList (Scene.toList_block_ne_nil (h.emptyLists l hl).1)
  · rw [Scene.promotionEdit]
    cases m.2.value with
    | none => exact TextEdit.isDeletion_insert _ _
    | some r =>
        exact TextEdit.isDeletion_of_toList (Scene.toList_block_ne_nil (List.cons_ne_nil _ _))

/-- The edits of a draft are those that are written in the end. -/
theorem keeps_of_finish (h : d.Sparing s exposed) (hs : s.Parsed)
    (ht : t ∈ s.tokens.tokens.toList) (hexposed : ¬ exposed t) {edits : List TextEdit}
    (hedits : s.finish d = .ok edits) : ∀ e ∈ edits, e.Keeps t := by
  have hnone : (s.complete d).edits.filter (·.1.isDeletion) = [] := by
    refine List.filter_eq_nil_iff.mpr fun e he => ?_
    rw [h.not_isDeletion e he]
    exact Bool.false_ne_true
  obtain ⟨rfl, _⟩ := Scene.finish_eq_ok hedits
  rw [RankedEdit.arrange_of_insertions hnone]
  intro e he
  obtain ⟨ranked, hranked, rfl⟩ :=
    List.mem_map.mp ((RankedEdit.dropRepeated_sublist _).subset he)
  exact h.keeps hs ht hexposed ranked (List.mem_mergeSort.mp hranked)

end Draft.Sparing

/-! ## Batches of insertions -/

/-- What is carried out exposes no more than the insertions do. -/
theorem Operation.Exposes.of_reduced {file : Syntax.File} {o z : Operation} {t : Token}
    (hz : z = Batch.anchorInEmpty file o ∨
      ∃ unnecessary, z = ⟨o.pointer, .convertToCompound unnecessary⟩)
    (h : z.Exposes file t) : o.Exposes file t := by
  have hpointer : z.pointer = o.pointer := by
    rcases hz with rfl | ⟨_, rfl⟩
    · exact Batch.pointer_anchorInEmpty file o
    · rfl
  cases h with
  | brackets hn hnil hr hin => exact .brackets (hpointer ▸ hn) hnil hr hin
  | assignment hn hnone hone hin hspans => exact .assignment (hpointer ▸ hn) hnone hone hin hspans
  | @value a v index e hn haction hv hin hspans =>
      rcases hz with rfl | ⟨_, rfl⟩
      · obtain ⟨index', haction'⟩ : ∃ index', o.action =
            .insert Insertable.embeddedAnnotation index' e := by
          rw [Batch.anchorInEmpty] at haction
          split at haction
          · obtain ⟨p, action⟩ := o
            cases action with
            | insert what index' e' =>
                obtain ⟨rfl, _, rfl⟩ := Action.insert.inj haction
                exact ⟨index', rfl⟩
            | _ => cases haction
          · exact ⟨index, haction⟩
        exact .value (hpointer ▸ hn) haction' hv hin hspans
      · cases haction

namespace Writer

/-- Insertions that are accepted are kept as insertions. -/
theorem isInsert_of_addAll : ∀ {operations : List Operation} {w w' : Writer},
    (∀ o ∈ operations, o.isInsert = true) → (∀ o ∈ w.changes, o.isInsert = true) →
    w.addAll operations = .ok w' → ∀ o ∈ w'.changes, o.isInsert = true
  | [], w, w', _, hw, h => by
      rw [← Except.ok.inj h]
      exact hw
  | o :: operations, w, w', hinserts, hw, h => by
      obtain ⟨ho, hinserts⟩ := List.forall_mem_cons.mp hinserts
      obtain ⟨w₁, hadd, hrest⟩ := addAll_cons_iff.mp h
      obtain ⟨_, converted, hconvert, rfl⟩ := add_eq_ok_iff.mp hadd
      refine isInsert_of_addAll hinserts (List.forall_mem_append.mpr ⟨hw, ?_⟩) hrest
      exact List.forall_mem_singleton.mpr (Conversion.convert_inserts ho _ hconvert).isInsert

theorem exists_draft {w : Writer} {edits : List TextEdit} (h : w.textEdits = .ok edits) :
    let reduced := Batch.reduce w.document.syntaxTree w.changes
    let scene := Scene.ofOperations w.document w.config reduced
    ∃ d, scene.writeAll .empty reduced = .ok d ∧ scene.finish d = .ok edits := by
  intro reduced scene
  rw [textEdits, synthesize] at h
  simp only [bind, Except.bind] at h
  split at h
  · cases h
  · next d hd => exact ⟨d, hd, h⟩

/-- The edits for insertions keep every token of the document that no insertion exposes: each edit
has nothing of its range, or takes it as a whole and writes its text again. -/
theorem keeps_tokens {uri text : String} {c config : Configuration} {document : Document}
    {operations : List Operation} {w : Writer} {edits : List TextEdit} {t : Token}
    (hparse : Document.parse uri text c = .ok document) (hlength : text.length < Text.wordBound)
    (hinserts : ∀ o ∈ operations, o.isInsert = true)
    (hadd : (ofDocument document config).addAll operations = .ok w)
    (hedits : w.textEdits = .ok edits) (ht : t ∈ document.tokens.tokens.toList)
    (hexposed : ∀ o ∈ w.changes, ¬ o.Exposes document.syntaxTree t) :
    ∀ e ∈ edits, e.Keeps t := by
  obtain ⟨hdocument, _, hfits⟩ := fits_of_addAll hadd fun _ h => absurd h List.not_mem_nil
  have hchanges := isInsert_of_addAll hinserts (fun _ h => absurd h List.not_mem_nil) hadd
  obtain ⟨d, hd, hfinish⟩ := exists_draft hedits
  obtain rfl : w.document = document := hdocument
  let scene := Scene.ofOperations w.document w.config
    (Batch.reduce w.document.syntaxTree w.changes)
  have hs : scene.Parsed := ⟨uri, text, c, hparse, hlength⟩
  have hsparing : d.Sparing scene fun t => ∃ o ∈ w.changes, o.Exposes w.document.syntaxTree t := by
    refine Draft.sparing_empty.writeAll hs (fun z hz => ?_) hd
    obtain ⟨o, ho, hzo⟩ := Batch.mem_reduce_of_isInsert hchanges hz
    refine ⟨Batch.fits_of_mem_reduce hfits z hz, ?_, fun t hz => ⟨o, ho, .of_reduced hzo hz⟩⟩
    rcases hzo with rfl | ⟨unnecessary, rfl⟩
    · exact Or.inl ((Batch.isInsert_anchorInEmpty _ o).trans (hchanges o ho))
    · exact Or.inr ⟨unnecessary, rfl⟩
  refine hsparing.keeps_of_finish hs ht ?_ hfinish
  rintro ⟨o, ho, hexposes⟩
  exact hexposed o ho hexposes

/-- A collection with a comment in it and one behind it. -/
def commentedText : String := "annotate E with @A : [1, /* one */ 2]; // all"

/-- An annotation for the annotation of `commentedText`. -/
def embeddedBesideValue : Operation :=
  ⟨⟨["targets", "0", "terms", "0"]⟩, .insert Insertable.embeddedAnnotation none
    ⟨Tree.ElementKind.annotation, [("Term", ⟨"Term", "B", none⟩)], [], none, none⟩⟩

/-- The comment in a value that gets an entry beside it is written again with the value. -/
theorem keeps_tokens_beside_value :
    ∃ document w edits t, Document.parse "a.cds" commentedText .default = .ok document ∧
      (ofDocument document .default).addAll [embeddedBesideValue] = .ok w ∧
      w.textEdits = .ok edits ∧ t ∈ document.tokens.comments ∧ t.text = "/* one */" ∧
      ∀ e ∈ edits, e.Keeps t := by
  have hchecked : ((Document.parse "a.cds" commentedText .default).toOption.any fun document =>
      ((ofDocument document .default).addAll [embeddedBesideValue]).toOption.any fun w =>
        w.textEdits.toOption.any fun _ => w.changes.all fun o =>
          (document.syntaxTree.resolve? o.pointer).any (·.brackets?.isNone)) = true := by
    decide +kernel
  obtain ⟨document, hparse, hchecked⟩ := Locate.exists_ok_of_any hchecked
  obtain ⟨w, hadd, hchecked⟩ := Locate.exists_ok_of_any hchecked
  obtain ⟨edits, hedits, hbrackets⟩ := Locate.exists_ok_of_any hchecked
  have hread : ((Lexer.tokenize commentedText).toOption.any fun tokens => tokens.any fun u =>
      u.isComment && (u.text == "/* one */" &&
        decide (u.range.stop.line ≤ u.range.start.line))) = true := by
    decide +kernel
  obtain ⟨tokens, htokens, hread⟩ := Locate.exists_ok_of_any hread
  obtain ⟨u, hu, hread⟩ := List.any_eq_true.mp hread
  obtain ⟨tokens', _, htokens', hplain, _⟩ := Document.tokens_of_parse hparse
  obtain rfl : tokens = tokens' := Except.ok.inj (htokens.symm.trans htokens')
  obtain ⟨t, ht, rfl⟩ := List.mem_map.mp (hplain ▸ hu)
  obtain ⟨hcomment, hread⟩ := Bool.and_eq_true_iff.mp hread
  obtain ⟨htext, hline⟩ := Bool.and_eq_true_iff.mp hread
  have hspans : ¬ t.SpansLines := Nat.not_lt.mpr (of_decide_eq_true hline)
  refine ⟨document, w, edits, t, hparse, hadd, hedits, List.mem_filter.mpr ⟨ht, hcomment⟩,
    beq_iff_eq.mp htext, ?_⟩
  refine keeps_tokens hparse (by decide +kernel) (by decide) hadd hedits ht fun o ho hexposes => ?_
  cases hexposes with
  | brackets hn _ hr _ =>
      have hnone := List.all_eq_true.mp hbrackets o ho
      rw [hn, Option.any_some, hr] at hnone
      cases hnone
  | value _ _ _ _ h => exact hspans h
  | assignment _ _ _ _ h => exact hspans h

end Writer

end AnnotationEdit

import AnnotationEdit.Proofs.Syntax.Ranges
import AnnotationEdit.Proofs.Syntax.Rewriting
import AnnotationEdit.Proofs.Token.Gaps
import AnnotationEdit.Proofs.Writer.Application

/-!
# Texts in which nodes are written anew

When the texts of some nodes of a document are replaced and each is read as something that may stand
in the place of its node, the new text is read as the file with that in the places of the nodes
(`Document.parse_rewritten`, for one node `Document.parse_in_place`).
-/

namespace AnnotationEdit

namespace Document

open Syntax (Node Renewal)

variable {uri text : String} {c : Configuration} {d : Document}

/-- What stands below a file stands below a target, declarations apart. -/
theorem exists_target {f : Syntax.File} {path more : List String} {u n : Node}
    (hu : (path, u) ∈ (Node.file f).children) (hn : u.resolve? more = some n)
    (hinner : n.isInner = true) :
    ∃ (i : Nat) (t : Syntax.Target), path = ["targets", toString i] ∧ u = .target t ∧
      f.targets[i]? = some t := by
  rcases Node.cases_of_mem_file hu with ⟨_, _, _, _, rfl⟩ | ⟨i, t, ht, hpath, rfl⟩
  · rcases Syntax.resolve?_eq_some_first hn with ⟨_, rfl⟩ | ⟨_, _, _, _, hmem, _⟩
    · cases hinner
    · exact absurd hmem List.not_mem_nil
  · exact ⟨i, t, hpath, rfl, ht⟩

/-- Nodes below targets at pointers that diverge stand apart. -/
theorem apart_of_diverges (h : parse uri text c = .ok d) {p q : Pointer} {a b : Node}
    (ha : d.syntaxTree.resolve? p = some a) (hb : d.syntaxTree.resolve? q = some b)
    (hinner : a.isInner = true) (hinner' : b.isInner = true) (hdiverges : p.Diverges q) :
    a.range.Before b.range ∨ b.range.Before a.range := by
  rcases Node.below_or_diverge ha hb with ⟨rest, hrest, _⟩ | ⟨rest, hrest, _⟩ |
    ⟨_, _, front, parent, path, u, more, path', v, more', hparent, hu, hmore, hv, hmore', hne⟩
  · exact absurd ⟨rest, hrest.symm⟩ (Pointer.isPrefixOf_eq_false.mp hdiverges.1)
  · exact absurd ⟨rest, hrest.symm⟩ (Pointer.isPrefixOf_eq_false.mp hdiverges.2)
  have hparent' : d.syntaxTree.resolve? ⟨front⟩ = some parent := hparent
  obtain ⟨ts, hts, hwritten⟩ := exists_written h hparent'
  have hordered := (ordered_code h).sublist hts
  have hinside : ∀ {path : List String} {u k : Node} {more : List String},
      (path, u) ∈ parent.children → u.resolve? more = some k →
        u.range.contains k.range = true := by
    intro path u k more hu hmore
    obtain ⟨_, hsub, hpart⟩ := Node.exists_child hwritten hu
    exact Node.contains_resolved hpart (hordered.sublist hsub) (Syntax.ne_file_of_mem_children hu)
      hmore
  have hbefore : u.range.Before v.range ∨ v.range.Before u.range := by
    rcases exists_step h hparent' with ⟨_, rfl⟩ | ⟨_, _, _, _, _, hmem, _⟩
    · obtain ⟨i, t, rfl, rfl, hi⟩ := exists_target hu hmore hinner
      obtain ⟨j, t', rfl, rfl, hj⟩ := exists_target hv hmore' hinner'
      rcases eq_or_rel_of_getElem? (tidy_of_parse h).targetsApart hi hj with rfl | hbefore
      · exact absurd rfl hne
      · exact hbefore
    · exact Node.apart_of_mem_children hwritten hordered (Syntax.ne_file_of_mem_children hmem) hu hv
        hne
  obtain ⟨hstart, hstop⟩ := Range.contains_iff.mp (hinside hu hmore)
  obtain ⟨hstart', hstop'⟩ := Range.contains_iff.mp (hinside hv hmore')
  exact hbefore.imp (fun hbefore => hstop.trans (le_trans hbefore hstart'))
    fun hbefore => hstop'.trans (le_trans hbefore hstart)

/-- The characters of a token are read as one token. -/
theorem exists_lexeme (h : parse uri text c = .ok d) {t : Token}
    (ht : t ∈ d.tokens.tokens.toList) : ∃ b tail follow, t.text.toList = b :: tail ∧
      Lexer.Lexeme b tail t.kind follow := by
  obtain ⟨_, b, tail, _, _, hplaced⟩ := exists_placed h ht
  obtain ⟨follow, hlexeme, _⟩ := hplaced.lexeme
  refine ⟨b, tail, follow, ?_, hlexeme⟩
  rw [show t.text = String.ofList (b :: tail) from hplaced.text, String.toList_ofList]

/-- A text in which several nodes are written anew is read as the file with what is to stand in
their places. -/
theorem parse_rewritten (h : parse uri text c = .ok d) {rs : List Renewal}
    (hrs : Renewal.Fitting c.aliases d.syntaxTree rs) :
    ∃ newText d' ms, TextEdit.applyAll text (rs.map (·.edit)) = .ok newText ∧
      parse uri newText c = .ok d' ∧ List.Forall₂ (fun r m => r.result m) rs ms ∧
      d'.syntaxTree.content =
        (d.syntaxTree.graftAll ((rs.map (·.pointer)).zip ms)).content := by
  obtain ⟨tokens, _, hread, hplain, hsorted, _, hlines, hunder, _⟩ := tokens_of_parse h
  have hread' : Lexer.tokenizeFrom (Position.origin.after []) text.toList =
      .ok (d.tokens.tokens.toList.map Token.plain) := hplain ▸ hread
  obtain ⟨cs, tokens', code, g, ms, hsplice, hnew⟩ :=
    @Renewal.exists_rewritten c.aliases d.syntaxTree _ rs [] text.toList []
      d.tokens.tokens.toList hrs (written_file h) hread' hsorted nofun fun r _ =>
        Position.origin_le _
  have hproper : ∀ r ∈ rs, r.node.range.Proper := by
    intro r hr
    obtain ⟨_, hfits⟩ := hrs.fits r hr
    have hinner := hfits.isInner
    exact (exists_code h hfits.resolves
      (by rintro f hf; rw [hf] at hinner; cases hinner)).1
  have hsort : (rs.map (·.edit)).mergeSort TextEdit.comesFirst = rs.map (·.edit) := by
    refine List.mergeSort_of_pairwise (List.pairwise_map.mpr ?_)
    refine hrs.pairwise.imp_of_mem fun {r s} hr _ hbefore => ?_
    rw [TextEdit.comesFirst_iff, TextEdit.key, TextEdit.key, Prod.Lex.le_iff]
    exact Or.inl (lt_of_lt_of_le (hproper r hr) hbefore)
  have htokens : Lexer.tokenize (String.ofList cs) = .ok tokens' := by
    rw [Lexer.tokenize, String.toList_ofList]
    exact hnew.read
  obtain ⟨d', hd', hcontent⟩ := exists_parse_of_respells htokens hnew.written hnew.respells
  refine ⟨String.ofList cs, d', ms, ?_, ?_, hnew.results, hcontent.trans hnew.content⟩
  · rw [TextEdit.applyAll, hsort]
    exact congrArg (Except.map String.ofList) hsplice
  · have huri : g.uri = uri := by
      rw [hnew.uri, hunder]
      rfl
    rwa [huri] at hd'

/-- A text in which a node is written anew. -/
theorem parse_in_place (h : parse uri text c = .ok d) {p : Pointer} {parent n : Node}
    {last : List String} (hp : d.syntaxTree.resolve? p = some parent)
    (hn : (last, n) ∈ parent.children) (hinner : n.isInner = true) {fragment : String}
    {read : List Token → Prop} (hspells : Lexer.Spells Lexer.Break fragment.toList read)
    {P : Node → Prop} (hput : ∀ us ts, parent.Admits c.aliases n us → read ts →
      ∃ m m', parent.Admits c.aliases m ts ∧ m'.content = m.content ∧ P m') :
    ∃ newText d' m, TextEdit.applyAll text [⟨n.range, fragment⟩] = .ok newText ∧
      parse uri newText c = .ok d' ∧ P m ∧
      d'.syntaxTree.content = (d.syntaxTree.graft (p.append last) m).content := by
  let r : Renewal := ⟨p.append last, n, fragment, P⟩
  have hfits : r.Fits c.aliases d.syntaxTree [] := by
    refine ⟨Locate.resolves_child hp hn, hinner, read, hspells, ?_⟩
    intro g q last' parent' hagrees hpointer hq hn'
    have hnode := (hagrees p nofun).trans hp
    obtain ⟨hsegments, _⟩ :=
      Node.step_unique hnode hn hq hn' (congrArg Pointer.segments hpointer)
    obtain rfl : p = q := congrArg Pointer.mk hsegments
    obtain rfl : parent' = parent :=
      Option.some.inj (hq.symm.trans hnode)
    exact hput
  have hfitting : Renewal.Fitting c.aliases d.syntaxTree [r] := ⟨hfits, nofun, trivial⟩
  obtain ⟨newText, d', ms, happly, hparse, hresults, hcontent⟩ := parse_rewritten h hfitting
  obtain ⟨m, _, hm, hnil, rfl⟩ := List.forall₂_cons_left_iff.mp hresults
  obtain rfl := List.forall₂_nil_left_iff.mp hnil
  exact ⟨newText, d', m, happly, hparse, hm, hcontent⟩

end Document

end AnnotationEdit

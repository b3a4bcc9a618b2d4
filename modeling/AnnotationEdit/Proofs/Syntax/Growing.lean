import AnnotationEdit.Proofs.Deletion.Rereading
import AnnotationEdit.Proofs.Syntax.Grafting
import AnnotationEdit.Proofs.Token.Splicing

/-!
# Texts in which a node goes on

When text is put behind a node of a file and its tokens write, together with those of the node,
something that may stand in the place of the node, the new text is read as the file with that in its
place (`Document.parse_behind`).
-/

namespace AnnotationEdit

theorem Syntax.Node.exists_graft_file {f : File} {p : Pointer} {parent n : Node}
    {last : List String} (hp : f.resolve? p = some parent) (hn : (last, n) ∈ parent.children)
    (m : Node) : m.graft (p.append last).segments (.file f) = .file (f.graft (p.append last) m) ∧
      (f.graft (p.append last) m).uri = f.uri := by
  have hset : ∀ (path : List String) (m' : Node), ∃ g, m'.setChild path (.file f) = .file g ∧
      g.uri = f.uri := by
    intro path m'
    unfold setChild
    split
    case h_8 key g hg =>
      obtain rfl := file.inj hg
      exact ⟨_, rfl, rfl⟩
    case h_9 => exact ⟨f, rfl, rfl⟩
    all_goals contradiction
  obtain ⟨g, hg, huri⟩ : ∃ g, m.graft (p.append last).segments (.file f) = .file g ∧
      g.uri = f.uri := by
    rcases resolve?_eq_some_first hp with ⟨hpath, rfl⟩ | ⟨first, rest, d, hpath, hd, _⟩
    · rw [Pointer.append, hpath, List.nil_append, graft_child hn]
      exact hset last m
    · rw [Pointer.append, hpath, List.append_assoc, graft_of_mem_children hd]
      exact hset first _
  rw [File.graft, hg]
  exact ⟨rfl, huri⟩

/-! ## What stands behind a node -/

/-- A member that is kept stands among the others. -/
theorem exists_of_filter_eq {α : Type} {p : α → Bool} {l as bs : List α} {a : α}
    (h : l.filter p = as ++ a :: bs) : ∃ before after, l = before ++ a :: after ∧
      before.filter p = as ∧ p a = true ∧ after.filter p = bs := by
  obtain ⟨before, rest, rfl, hbefore, hrest⟩ := List.filter_eq_append_iff.mp h
  obtain ⟨gap, after, rfl, hgap, ha, hafter⟩ := List.filter_eq_cons_iff.mp hrest
  refine ⟨before ++ gap, after, (List.append_assoc _ _ _).symm, ?_, ha, hafter⟩
  rw [List.filter_append, hbefore, List.filter_eq_nil_iff.mpr hgap, List.append_nil]

namespace Lexer

theorem isBreak_of_delimiter {mark : String} (h : mark ∈ Syntax.delimiters) :
    ∀ c ∈ mark.toList.head?, isBreak c = true := by
  have hall : Syntax.delimiters.all (fun mark => mark.toList.head?.all isBreak) = true := by decide
  exact (Option.all_eq_true _ _).mp (List.all_eq_true.mp hall mark h)

theorem isBreak_of_comment {front cs : List Char} {tokens : List Token}
    (h : tokenizeFrom (Position.origin.after front) cs = .ok tokens) {t : Token} (ht : t ∈ tokens)
    (hcomment : t.isComment = true) : ∀ c ∈ t.text.toList.head?, isBreak c = true := by
  obtain ⟨_, d, tail, rest, _, hplaced⟩ := exists_placed _ (Nat.le_refl _) h t ht
  obtain ⟨follow, hlexeme, _⟩ := hplaced.lexeme
  intro c hc
  rw [hplaced.text, String.toList_ofList, hlexeme.eq_slash hcomment] at hc
  obtain rfl := Option.some.inj hc
  decide

theorem isBreak_of_delimited {front cs : List Char} {before after code : List Token}
    (h : tokenizeFrom (Position.origin.after front) cs = .ok (before ++ after))
    (hcode : Respells (after.filter Token.isCode) (code.map Token.plain))
    (hdelimited : Syntax.Delimited code) :
    ∀ u ∈ after.head?, ∀ c ∈ u.text.toList.head?, isBreak c = true := by
  intro u hu
  obtain ⟨us, rfl⟩ := List.head?_eq_some_iff.mp hu
  cases hkind : u.isCode with
  | true =>
      rw [List.filter_cons_of_pos hkind] at hcode
      cases code with
      | nil => cases hcode.nil
      | cons v vs =>
          obtain ⟨_, _, heq, hbare, _⟩ := hcode.cons
          obtain ⟨rfl, rfl⟩ := List.cons.inj heq
          obtain ⟨mark, hmark, hismark, _⟩ := hdelimited v rfl
          rw [Token.is, Bool.and_eq_true, beq_iff_eq, beq_iff_eq] at hismark
          have htext : u.text = mark := (Token.text_of_bare hbare).trans hismark.2
          rw [htext]
          exact isBreak_of_delimiter hmark
  | false =>
      have hcomment : u.isComment = true := by
        rw [Token.isCode, Bool.not_eq_false'] at hkind
        exact hkind
      exact isBreak_of_comment h (List.mem_append_right _ List.mem_cons_self) hcomment

end Lexer

/-! ## Reading the new text -/

namespace Document

open Syntax (Node)

variable {uri text : String} {c : Configuration} {d : Document}

/-- A target is led to by its number. -/
theorem exists_targetIndex (h : parse uri text c = .ok d) {q : Pointer} {t : Syntax.Target}
    (hq : d.syntaxTree.resolve? q = some (.target t)) :
    ∃ k : Nat, q = ⟨["targets", toString k]⟩ ∧ d.syntaxTree.targets[k]? = some t := by
  rcases exists_step h hq with ⟨_, heq⟩ | ⟨r, path, parent, rfl, hr, hmem, _⟩
  · cases heq
  obtain ⟨f, rfl⟩ := Node.exists_file_of_target_mem hmem
  rcases exists_step h hr with ⟨rfl, hf⟩ | ⟨_, _, _, _, _, hfile, _⟩
  · obtain rfl := Node.file.inj hf
    rcases Node.cases_of_mem_file hmem with ⟨_, _, _, _, heq⟩ | ⟨k, u, hu, rfl, heq⟩
    · cases heq
    · obtain rfl := Node.target.inj heq
      exact ⟨k, rfl, hu⟩
  · exact absurd rfl (Syntax.ne_file_of_mem_children hfile f)

/-- Tokens that write a file in the places of another one are read as it. -/
theorem exists_parse_of_respells {newText : String} {tokens code : List Token} {f : Syntax.File}
    (hread : Lexer.tokenize newText = .ok tokens) (hf : (Node.file f).WrittenAs c.aliases code)
    (hrespells : Respells (tokens.filter Token.isCode) (code.map Token.plain)) :
    ∃ d', parse f.uri newText c = .ok d' ∧ d'.syntaxTree.content = f.content := by
  obtain ⟨items, hitems, hdeclarations, htargets⟩ := hf
  obtain ⟨ks, hks, hkept⟩ := Respells.exists_roles
    (fun u hu => Lexer.identifier_of_tokenize hread u (List.mem_filter.mp hu).1) hrespells
  obtain ⟨items', hitems', hdeclarations', htargets'⟩ := Syntax.items_respelled hitems hkept
  refine ⟨_, parse_eq_ok_iff.mpr ⟨tokens, items', ks, hread, hitems', hks, rfl⟩, ?_⟩
  have hall : ∀ ts : List Syntax.Target, Syntax.membersWithout "targets"
      Syntax.Target.contentWithout (fun _ => false) 0 ts = ts.map (·.contentWithout .none) :=
    Syntax.membersWithout_none "targets" _ 0
  show (fileOf f.uri newText items').content = f.content
  rw [Syntax.File.content, Syntax.File.content, Syntax.File.contentWithout,
    Syntax.File.contentWithout, hall, hall, hdeclarations, htargets, ← hdeclarations', ← htargets']
  rfl

theorem filter_isCode_plain (ts : List Token) :
    (ts.map Token.plain).filter Token.isCode = (ts.filter Token.isCode).map Token.plain :=
  List.filter_map

/-- Tokens of a text, with others in the middle and behind them. -/
theorem respells_spliced {before after ts : List Token} {after' : List Token}
    (hafter : Respells after' (after.map Token.plain)) (hts : ∀ t ∈ ts, t.isCode = true) :
    Respells ((before.map Token.plain ++ (ts.map Token.plain ++ after')).filter Token.isCode)
      ((before.filter Token.isCode ++ (ts ++ after.filter Token.isCode)).map Token.plain) := by
  have hbehind := hafter.filter (p := Token.isCode) fun t => rfl
  rw [filter_isCode_plain] at hbehind
  have hwritten : (ts.map Token.plain).filter Token.isCode = ts.map Token.plain := by
    rw [filter_isCode_plain, List.filter_eq_self.mpr hts]
  rw [List.filter_append, filter_isCode_plain, List.filter_append, hwritten]
  rw [Respells] at hbehind ⊢
  simp only [List.map_append]
  rw [hbehind]

theorem exists_parse_of_graft (h : parse uri text c = .ok d) {p : Pointer} {parent n m k : Node}
    {last : List String} (hp : d.syntaxTree.resolve? p = some parent)
    (hn : (last, n) ∈ parent.children) {code tokens : List Token} {newText : String}
    (hk : k.WrittenAs c.aliases code)
    (hcontent : k.content = (m.graft (p.append last).segments (.file d.syntaxTree)).content)
    (hread : Lexer.tokenize newText = .ok tokens)
    (hrespells : Respells (tokens.filter Token.isCode) (code.map Token.plain)) :
    ∃ d', parse uri newText c = .ok d' ∧
      d'.syntaxTree.content = (d.syntaxTree.graft (p.append last) m).content := by
  obtain ⟨_, _, _, _, _, _, _, hunder, _⟩ := tokens_of_parse h
  have huri : d.syntaxTree.uri = uri := by
    rw [hunder]
    rfl
  obtain ⟨hgraft, hgrafturi⟩ := Node.exists_graft_file hp hn m
  rw [hgraft] at hcontent
  cases k with
  | file f =>
      have hf : f.content = (d.syntaxTree.graft (p.append last) m).content :=
        Node.file.inj hcontent
      have hfuri : f.uri = uri :=
        (congrArg Syntax.File.uri hf).trans (hgrafturi.trans huri)
      obtain ⟨d', hd', hd'content⟩ := exists_parse_of_respells hread hk hrespells
      rw [hfuri] at hd'
      exact ⟨d', hd', hd'content.trans hf⟩
  | _ => cases hcontent

/-- A text in which something is put behind a node that may go on with it. -/
theorem parse_behind (h : parse uri text c = .ok d) {p : Pointer} {parent n : Node}
    {last : List String} (hp : d.syntaxTree.resolve? p = some parent)
    (hn : (last, n) ∈ parent.children) (hq : ∀ q, n ≠ .qualifier q)
    (hfile : ∀ g, parent ≠ .file g) {cs : List Char} {read : List Token → Prop}
    (hcs : Lexer.Spells Lexer.Break cs read) (hfirst : ∃ b ∈ cs.head?, Lexer.isBreak b = true)
    {P : Node → Prop} (hgrow : ∀ us ts, parent.Admits c.aliases n us → read ts →
      ∃ m m', parent.Admits c.aliases m (us ++ ts) ∧ m'.content = m.content ∧ P m') :
    ∃ d' m, parse uri (String.ofList (Lexer.inserted text.toList n.range.stop cs)) c = .ok d' ∧
      P m ∧ d'.syntaxTree.content = (d.syntaxTree.graft (p.append last) m).content := by
  obtain ⟨tokens, _, hread, hplain, _⟩ := tokens_of_parse h
  obtain ⟨front, us, back, hcode, hus, hback, _, hput⟩ :=
    Syntax.grafts_file (written_file h) hp hn hq hfile
  obtain ⟨_, t, _, hlast, hrange⟩ := hus.spans
  obtain ⟨us', rfl⟩ := List.getLast?_eq_some_iff.mp hlast
  have hsplit : d.tokens.tokens.toList.filter Token.isCode = (front ++ us') ++ t :: back := by
    rw [hcode]
    simp only [List.append_assoc, List.singleton_append]
  obtain ⟨before, after, hall, hbefore, ht, rfl⟩ := exists_of_filter_eq hsplit
  have htokens : tokens = before.map Token.plain ++ t.plain :: after.map Token.plain := by
    rw [← hplain, hall, List.map_append, List.map_cons]
  rw [htokens] at hread
  have hkind : t.plain.kind ≠ .lineComment := by
    intro hcomment
    rw [Token.isCode, Token.isComment, show t.kind = .lineComment from hcomment] at ht
    cases ht
  have hbreaks : ∀ u ∈ (after.map Token.plain).head?, ∀ c ∈ u.text.toList.head?,
      Lexer.isBreak c = true := by
    rw [List.append_cons] at hread
    exact @Lexer.isBreak_of_delimited [] _ _ _ _ hread
      (congrArg (List.map Token.bare) (filter_isCode_plain after)) hback
  obtain ⟨ts, after', hts, htscode, hrespells, hnew⟩ :=
    Lexer.exists_insertion hread hkind hbreaks hcs hfirst
  obtain ⟨m, m', hm, hcontent, hP⟩ := hgrow _ ts hus hts
  obtain ⟨k, hk, hkcontent, _⟩ := hput m m' _ hm hcontent
  have hspelled : Respells ((before.map Token.plain ++
      t.plain :: (ts.map Token.plain ++ after')).filter Token.isCode)
      ((front ++ (us' ++ [t] ++ ts ++ after.filter Token.isCode)).map Token.plain) := by
    have hspliced := @respells_spliced (before ++ [t]) _ _ _ hrespells htscode
    have hfront : (before ++ [t]).filter Token.isCode = front ++ (us' ++ [t]) := by
      rw [List.filter_append, hbefore, List.filter_cons_of_pos ht, List.filter_nil,
        List.append_assoc]
    rw [hfront] at hspliced
    simpa only [List.map_append, List.append_assoc, List.map_cons, List.map_nil, List.cons_append,
      List.nil_append] using hspliced
  obtain ⟨d', hd', hd'content⟩ := exists_parse_of_graft h hp hn hk hkcontent hnew hspelled
  have hstop : n.range.stop = t.plain.range.stop := by
    rw [hrange]
    rfl
  rw [← hstop] at hd'
  exact ⟨d', m', hd', hP, hd'content⟩

end Document

end AnnotationEdit

import AnnotationEdit.Proofs.Deletion.Separators
import AnnotationEdit.Proofs.Syntax.Remainder

/-!
# Reading the file that is left

When members of lists are taken out of a text, what is left is read as a file that says the same
without them (`Document.exists_remainder`). No list gets a comma at its end that had none there.
-/

namespace AnnotationEdit

/-! ## Commas at the ends of lists -/

/-- The brackets that close a list behind a comma at its end. -/
def closersAfterComma : List Token → List Token
  | t :: u :: ts =>
    if t.is "," && u.isCloser then u :: closersAfterComma (u :: ts) else closersAfterComma (u :: ts)
  | _ => []

/-- The code of `d'` is the code of `d` without some of its tokens, and no list that is left has a
comma at its end that it did not have there. -/
def Document.Trims (d' d : Document) : Prop :=
  ∃ ts : List Token, ts.Sublist (d.tokens.tokens.toList.filter Token.isCode) ∧
    Respells (d'.tokens.tokens.toList.filter Token.isCode) ts ∧
    closersAfterComma ts ⊆ closersAfterComma (d.tokens.tokens.toList.filter Token.isCode)

theorem mem_closersAfterComma {u : Token} : ∀ {ts : List Token}, u ∈ closersAfterComma ts ↔
    ∃ front t rest, ts = front ++ t :: u :: rest ∧ t.is "," = true ∧ u.isCloser = true
  | [] => by
      refine ⟨fun h => absurd h List.not_mem_nil, ?_⟩
      rintro ⟨front, t, rest, h, _⟩
      cases front <;> cases h
  | [v] => by
      refine ⟨fun h => absurd h List.not_mem_nil, ?_⟩
      rintro ⟨front, t, rest, h, _⟩
      rcases front with _ | ⟨_, _ | _⟩ <;> cases h
  | v :: w :: ts => by
      have hrest : u ∈ closersAfterComma (w :: ts) ↔ ∃ front t rest,
          v :: w :: ts = (v :: front) ++ t :: u :: rest ∧ t.is "," = true ∧ u.isCloser = true := by
        rw [mem_closersAfterComma]
        simp only [List.cons_append, List.cons.injEq, true_and]
      have hcases : u ∈ closersAfterComma (v :: w :: ts) ↔
          (w = u ∧ v.is "," = true ∧ u.isCloser = true) ∨ u ∈ closersAfterComma (w :: ts) := by
        rw [closersAfterComma]
        split
        · next hcond =>
          rw [Bool.and_eq_true] at hcond
          rw [List.mem_cons]
          refine or_congr_left ⟨?_, fun h => h.1.symm⟩
          rintro rfl
          exact ⟨rfl, hcond⟩
        · next hcond =>
          rw [Bool.and_eq_true] at hcond
          refine ⟨Or.inr, ?_⟩
          rintro (⟨rfl, hcomma, hcloser⟩ | h)
          · exact absurd ⟨hcomma, hcloser⟩ hcond
          · exact h
      rw [hcases, hrest]
      constructor
      · rintro (⟨rfl, hcomma, hcloser⟩ | ⟨front, t, rest, h⟩)
        · exact ⟨[], v, ts, rfl, hcomma, hcloser⟩
        · exact ⟨v :: front, t, rest, h⟩
      · rintro ⟨front, t, rest, h, hcomma, hcloser⟩
        cases front with
        | nil =>
            obtain ⟨rfl, htail⟩ := List.cons.inj h
            exact Or.inl ⟨(List.cons.inj htail).1, hcomma, hcloser⟩
        | cons x front =>
            obtain ⟨rfl, _⟩ := List.cons.inj h
            exact Or.inr ⟨front, t, rest, h, hcomma, hcloser⟩

namespace CutsMembers

variable {flagged cut : Token → Bool} {code : List Token}

/-- A bracket behind a comma had a comma in front of it before the cut. -/
theorem closersAfterComma_kept (h : CutsMembers flagged cut code) (hchain : code.IsChain Apart) :
    closersAfterComma (kept cut code) ⊆ closersAfterComma code := by
  intro u hu
  obtain ⟨front, t, rest, heq, hcomma, hcloser⟩ := mem_closersAfterComma.mp hu
  obtain ⟨as, bs, rfl, _, hbs⟩ := List.filter_eq_append_iff.mp heq
  obtain ⟨cs, ds, rfl, _, htkept, hds⟩ := List.filter_eq_cons_iff.mp hbs
  obtain ⟨es, fs, rfl, hes, hukept, _⟩ := List.filter_eq_cons_iff.mp hds
  rw [← List.append_assoc] at h hchain ⊢
  have hcut : ∀ v ∈ es, flagged v = true ∨ v.is "," = true := by
    intro v hv
    refine h.comma_of_cut v ?_ (by simpa using hes v hv)
    exact List.mem_append_right _ (List.mem_cons_of_mem t (List.mem_append_left _ hv))
  by_cases hlast : ∃ v ∈ es.getLast?, flagged v = true
  · -- the comma stands in front of the last run of its list, so it is cut
    exfalso
    have htcut : cut t = true := by
      refine h.cut_of_open _ t _ rfl hcomma ⟨es, u, fs, rfl, hcloser, ?_, ?_, hlast, hcut⟩
      · rw [← Bool.not_eq_true]
        intro hflagged
        have hucut := h.cut_of_flagged u (by simp) hflagged
        rw [hucut] at hukept
        cases hukept
      · intro v hv
        obtain ⟨es, rfl⟩ := List.head?_eq_some_iff.mp hv
        have hapart := (List.isChain_append.mp hchain).2.1
        rw [List.cons_append] at hapart
        have hother := (List.isChain_cons_cons.mp hapart).1 hcomma
        rcases hcut v List.mem_cons_self with hflagged | hvcomma
        · exact hflagged
        · rw [hother] at hvcomma
          cases hvcomma
    rw [htcut] at htkept
    cases htkept
  · rcases List.eq_nil_or_concat' es with rfl | ⟨es, last, rfl⟩
    · exact mem_closersAfterComma.mpr ⟨_, t, fs, rfl, hcomma, hcloser⟩
    · have hlastcomma : last.is "," = true := by
        rcases hcut last (List.mem_append_right _ List.mem_cons_self) with hflagged | hlastcomma
        · exact absurd ⟨last, List.getLast?_concat, hflagged⟩ hlast
        · exact hlastcomma
      refine mem_closersAfterComma.mpr ⟨(as ++ cs) ++ t :: es, last, fs, ?_, hlastcomma, hcloser⟩
      simp only [List.append_assoc, List.cons_append, List.nil_append]

end CutsMembers

/-! ## What is flagged -/

theorem Token.Ordered.nodup {n : Nat} {ts : List Token} (h : Ordered n ts) : ts.Nodup := by
  refine h.apart.imp_of_mem fun ht _ hbefore heq => ?_
  rw [← heq] at hbefore
  exact absurd hbefore (not_le_of_gt (h.proper _ ht))

/-- Whatever is flagged, some cut fits it. -/
theorem exists_cutsMembers (flagged : Token → Bool) {code : List Token} (hnodup : code.Nodup) :
    ∃ cut, CutsMembers flagged cut code := by
  classical
  refine ⟨fun t => decide (flagged t = true ∨ t.is "," = true ∧ ∃ front rest,
    code = front ++ t :: rest ∧ ((∃ u ∈ front.getLast?, flagged u = true) ∨
      OpenRun flagged rest)), ?_, ?_, ?_, ?_, ?_⟩
  · intro t _ hflagged
    exact decide_eq_true (Or.inl hflagged)
  · intro t _ hcut
    exact (of_decide_eq_true hcut).imp_right And.left
  · intro front t comma rest heq hflagged hcomma
    rw [List.append_cons] at heq
    exact decide_eq_true (Or.inr ⟨hcomma, _, rest, heq,
      Or.inl ⟨t, List.getLast?_concat, hflagged⟩⟩)
  · intro front t comma rest heq hfree _ hcommafree hcut
    rw [List.append_cons] at heq
    rcases of_decide_eq_true hcut with hflagged | ⟨_, front', rest', heq', hrest⟩
    · rw [hcommafree] at hflagged
      cases hflagged
    · -- the comma stands in one place only
      rw [heq] at heq' hnodup
      obtain ⟨_, hsuffix, hdisjoint⟩ := List.nodup_append.mp hnodup
      have hfront : comma ∉ front ++ [t] := fun hmem =>
        hdisjoint comma hmem comma List.mem_cons_self rfl
      have hbehind : comma ∉ rest := (List.nodup_cons.mp hsuffix).1
      obtain ⟨rfl, _, rfl⟩ := (List.append_cons_inj_of_notMem hfront hbehind).mp heq'
      rcases hrest with ⟨u, hu, hflagged⟩ | hopen
      · rw [Option.mem_def, List.getLast?_concat] at hu
        rw [← Option.some.inj hu, hfree] at hflagged
        cases hflagged
      · exact hopen
  · intro front comma rest heq hcomma hopen
    exact decide_eq_true (Or.inr ⟨hcomma, front, rest, heq, Or.inr hopen⟩)

namespace Syntax

/-- Some member stays of every list with commas that has members, collections aside. -/
def File.KeepsMembers (f : File) (gone : Pointer → Bool) : Prop :=
  ∀ q parent, f.resolve? q = some parent → parent.separatesByCommas = true →
    (∀ c, parent ≠ .collection c) → parent.children ≠ [] →
    ∃ path m, (path, m) ∈ parent.children ∧ gone (q.append path) = false

variable {gone : Selection}

theorem membersWithout_ne_nil {α : Type} {name : String} {content : α → Selection → α} :
    ∀ {es : List α} {i j : Nat}, j < es.length → gone [name, toString (i + j)] = false →
      membersWithout name content gone i es ≠ []
  | e :: es, i, j, hj, hgone => by
      rw [membersWithout]
      split
      · next hselected =>
        cases j with
        | zero =>
            rw [Nat.add_zero, hselected] at hgone
            cases hgone
        | succ j =>
            rw [Nat.add_comm j 1, ← Nat.add_assoc] at hgone
            exact membersWithout_ne_nil (Nat.lt_of_succ_lt_succ hj) hgone
      · exact List.cons_ne_nil _ _

theorem targetsStay_of_forall : ∀ {ts : List Target} {i : Nat},
    (∀ j t, ts[j]? = some t → gone ["targets", toString (i + j)] = false ∧
      Members (gone.below ["targets", toString (i + j)]) (.target t) ∧
      (t.assignments ≠ [] → membersWithout "assignments" Assignment.contentWithout
        (gone.below ["targets", toString (i + j)]) 0 t.assignments ≠ [])) →
    TargetsStay gone i ts
  | [], _, _ => trivial
  | t :: ts, i, h => by
      refine ⟨h 0 t rfl, targetsStay_of_forall fun j u hu => ?_⟩
      rw [Nat.add_assoc, Nat.add_comm 1 j]
      exact h (j + 1) u hu

/-- Targets stay when only members of their lists are selected, never all assignments. -/
theorem targetsStay_of_members {f : File} {gone : Pointer → Bool}
    (hmembers : Members (fun path => gone ⟨path⟩) (.file f)) (hkeeps : f.KeepsMembers gone) :
    TargetsStay (fun path => gone ⟨path⟩) 0 f.targets := by
  refine targetsStay_of_forall fun j t ht => ?_
  rw [Nat.zero_add]
  have hchild := Node.target_mem_children ht
  have hbelow := hmembers.child hchild
  refine ⟨hmembers.eq_false hchild rfl, hbelow, fun hne => ?_⟩
  obtain ⟨k, hk, hgone⟩ : ∃ k, k < t.assignments.length ∧
      gone ⟨["targets", toString j] ++ ["assignments", toString k]⟩ = false := by
    cases hcommas : (Node.target t).separatesByCommas with
    | false =>
        obtain ⟨k, a, hk, ha, hbare⟩ := Node.exists_bare hcommas
        exact ⟨k, (List.getElem?_eq_some_iff.mp hk).1, hbelow.eq_false ha hbare⟩
    | true =>
        have hresolve : f.resolve? ⟨["targets", toString j]⟩ = some (.target t) := by
          rw [File.resolve?, ← List.append_nil ["targets", toString j],
            Node.resolve?_of_mem_children hchild]
          rfl
        have hchildren : (Node.target t).children ≠ [] := List.ne_nil_of_mem
          (Node.assignment_mem_children (List.getElem?_eq_getElem (List.length_pos_iff.mpr hne)))
        obtain ⟨path, m, hm, hgone⟩ := hkeeps _ _ hresolve hcommas (fun _ => Node.noConfusion)
          hchildren
        obtain ⟨k, _, hk, rfl, _⟩ := Node.exists_of_mem_numbered hm
        exact ⟨k, (List.getElem?_eq_some_iff.mp hk).1, hgone⟩
  refine membersWithout_ne_nil hk ?_
  rw [Nat.zero_add]
  exact hgone

/-- The declarations of a file are never selected. -/
theorem Flags.targets {flagged : Token → Bool} {f : File} {ts : List Token}
    (hmembers : Members gone (.file f)) (h : Flags flagged gone (Node.file f).children ts) :
    Flags flagged gone (numberedFrom "targets" 0 (f.targets.map .target)) ts := by
  intro t ht
  rw [h t ht]
  constructor
  · rintro ⟨path, c, rest, m, hc, hgone, hm, hcontains⟩
    rcases List.mem_append.mp hc with hdeclaration | htarget
    · exfalso
      obtain ⟨_, d, _, _, rfl⟩ := Node.exists_of_mem_numbered hdeclaration
      rcases resolve?_eq_some_first hm with ⟨rfl, _⟩ | ⟨_, _, _, _, hnone, _⟩
      · rw [List.append_nil, hmembers.eq_false hc rfl] at hgone
        cases hgone
      · exact absurd hnone List.not_mem_nil
    · exact ⟨path, c, rest, m, htarget, hgone, hm, hcontains⟩
  · rintro ⟨path, c, rest, m, hc, hgone, hm, hcontains⟩
    exact ⟨path, c, rest, m, List.mem_append_right _ hc, hgone, hm, hcontains⟩

end Syntax

/-! ## The new file -/

theorem Respells.filter {p : Token → Bool} (hp : ∀ t, p t.bare = p t) {ks ts : List Token}
    (h : Respells ks ts) : Respells (ks.filter p) (ts.filter p) := by
  have hbare : ∀ us : List Token, (us.filter p).map Token.bare = (us.map Token.bare).filter p := by
    intro us
    rw [List.filter_map]
    exact congrArg _ (List.filter_congr fun t _ => (hp t).symm)
  rw [Respells, hbare, hbare, h]

/-- Tokens without roles that respell others take over their roles. -/
theorem Respells.exists_roles : ∀ {us ts : List Token}, (∀ u ∈ us, u.identifier = none) →
    Respells us (ts.map Token.plain) → ∃ ks : List Token, ks.map Token.plain = us ∧ Respells ks ts
  | us, [], _, h => by
      rw [h.nil]
      exact ⟨[], rfl, rfl⟩
  | us, t :: ts, hplain, h => by
      obtain ⟨u, us, rfl, hu, h⟩ := h.cons
      obtain ⟨hrole, hplain⟩ := List.forall_mem_cons.mp hplain
      obtain ⟨ks, hks, hrespells⟩ := Respells.exists_roles hplain h
      refine ⟨{ u with identifier := t.identifier } :: ks, ?_, ?_⟩
      · rw [List.map_cons, hks]
        show u.plain :: us = u :: us
        rw [Token.plain_of_identifier hrole]
      · have hbare : ({ u with identifier := t.identifier } : Token).bare = t.bare := by
          have hkind := Token.kind_of_bare hu
          have htext := Token.text_of_bare hu
          show (⟨u.kind, u.text, default, t.identifier⟩ : Token) = _
          rw [hkind, htext]
          rfl
        rw [Respells, List.map_cons, List.map_cons, hbare]
        exact congrArg _ hrespells

namespace Document

open DeletionRange (Runs Removable allEdits)

variable {uri text : String} {c : Configuration} {d : Document} {gone : Pointer → Bool}
variable {flagged : Token → Bool} {context : DeletionContext} {ranges : List DeletionRange}

/-- The items of a file, and what is left of them after a cut. -/
theorem exists_pruned (h : parse uri text c = .ok d)
    (hmembers : Syntax.Members (fun path => gone ⟨path⟩) (.file d.syntaxTree))
    (hkeeps : d.syntaxTree.KeepsMembers gone)
    (hflags : Syntax.Flags flagged (fun path => gone ⟨path⟩) (Syntax.Node.file d.syntaxTree).children
      (d.tokens.tokens.toList.filter Token.isCode)) {cut : Token → Bool}
    (hcuts : CutsMembers flagged cut (d.tokens.tokens.toList.filter Token.isCode)) :
    Syntax.Stays flagged (d.tokens.tokens.toList.filter Token.isCode) ∧
      ∀ ks, Respells ks (kept cut (d.tokens.tokens.toList.filter Token.isCode)) →
        ∃ items, Syntax.consecutive (Syntax.Item.WrittenAs c.aliases) items ks ∧
          ∀ newText, (fileOf uri newText items).content = d.syntaxTree.contentWithout gone := by
  obtain ⟨_, items, _, _, hsorted, hitems, _, hfile, _⟩ := tokens_of_parse h
  have htargets : d.syntaxTree.targets = Syntax.targetsOf items := by rw [hfile]; rfl
  have hdeclarations : d.syntaxTree.declarations = Syntax.declarationsOf items := by rw [hfile]; rfl
  have huri : d.syntaxTree.uri = uri := by rw [hfile]; rfl
  have hstay := Syntax.targetsStay_of_members hmembers hkeeps
  have hflags := hflags.targets hmembers
  rw [htargets] at hstay hflags
  obtain ⟨hstays, hrest⟩ := Syntax.prune_items c.aliases hcuts
    (hsorted.sublist List.filter_sublist) hitems ⟨[], [], by simp⟩ hstay hflags
  refine ⟨hstays, fun ks hks => ?_⟩
  obtain ⟨items', hitems', hnewDeclarations, hnewTargets⟩ := hrest ks hks
  refine ⟨items', hitems', fun newText => ?_⟩
  rw [Syntax.File.content, Syntax.File.contentWithout, Syntax.File.contentWithout, huri,
    hdeclarations, htargets, ← hnewTargets, ← hnewDeclarations]
  congr 1
  exact Syntax.membersWithout_none _ _ _ _

theorem removable (h : parse uri text c = .ok d)
    (hmembers : Syntax.Members (fun path => gone ⟨path⟩) (.file d.syntaxTree))
    (hkeeps : d.syntaxTree.KeepsMembers gone)
    (hflags : Syntax.Flags flagged (fun path => gone ⟨path⟩) (Syntax.Node.file d.syntaxTree).children
      (d.tokens.tokens.toList.filter Token.isCode))
    (htokens : context.tokens = d.tokens) (hlines : context.lines = d.lines)
    (hruns : Runs context.tokens flagged ranges) : Removable context flagged ranges := by
  obtain ⟨_, items, _, _, hsorted, hitems, _⟩ := tokens_of_parse h
  obtain ⟨cut, hcuts⟩ := exists_cutsMembers flagged (hsorted.sublist List.filter_sublist).nodup
  refine ⟨?_, hruns, ?_, ?_⟩
  · rw [htokens, hlines]
    exact onLines_of_parse h
  · rw [htokens]
    exact Syntax.tame_of_consecutive hitems
  · rw [htokens]
    exact (exists_pruned h hmembers hkeeps hflags hcuts).1

/-- A text without the members that were selected is read as the file without them, with no comma
left over at the end of a list. -/
theorem exists_remainder (h : parse uri text c = .ok d)
    (hmembers : Syntax.Members (fun path => gone ⟨path⟩) (.file d.syntaxTree))
    (hkeeps : d.syntaxTree.KeepsMembers gone)
    (hflags : Syntax.Flags flagged (fun path => gone ⟨path⟩) (Syntax.Node.file d.syntaxTree).children
      (d.tokens.tokens.toList.filter Token.isCode))
    (htokens : context.tokens = d.tokens) (hremovable : Removable context flagged ranges)
    (hdeletes : ∀ e ∈ allEdits context ranges, e.newText = "")
    (hsorted : (allEdits context ranges).mergeSort TextEdit.comesFirst = allEdits context ranges)
    {newText : String}
    (happly : TextEdit.applyAll text (allEdits context ranges) = .ok newText) :
    ∃ d', parse uri newText c = .ok d' ∧
      d'.syntaxTree.content = d.syntaxTree.contentWithout gone ∧ d'.Trims d := by
  have hcuts := hremovable.cutsMembers
  have hclean := hremovable.cleanCut
  have hchain := hremovable.tame.chain
  rw [htokens] at hcuts hclean hchain
  obtain ⟨tokens, _, hread, hplain, _⟩ := tokens_of_parse h
  rw [hplain] at hclean
  obtain ⟨tokens', hread', hrespells⟩ :=
    Lexer.tokenize_applyAll hread hclean hdeletes hsorted happly
  have hcode : (tokens.filter fun t => !TextEdit.cuts (allEdits context ranges) t).filter
      Token.isCode = (kept (TextEdit.cuts (allEdits context ranges))
        (d.tokens.tokens.toList.filter Token.isCode)).map Token.plain := by
    rw [← hplain, kept, List.filter_map, List.filter_map, List.filter_filter, List.filter_filter]
    refine congrArg _ (List.filter_congr fun t _ => ?_)
    rw [Bool.and_comm]
    rfl
  have hnew := hrespells.filter (p := Token.isCode) fun t => rfl
  rw [hcode] at hnew
  obtain ⟨ks, hks, hkept⟩ := Respells.exists_roles
    (fun u hu => Lexer.identifier_of_tokenize hread' u (List.mem_filter.mp hu).1) hnew
  obtain ⟨items, hitems, hcontent⟩ :=
    (exists_pruned h hmembers hkeeps hflags hcuts).2 ks hkept
  refine ⟨_, parse_eq_ok_iff.mpr ⟨tokens', items, ks, hread', hitems, hks, rfl⟩,
    hcontent newText, ?_⟩
  have hstream := (TokenStream.ofTokens_eq (Lexer.ordered_of_tokenize hread')
    (Lexer.identifier_of_tokenize hread') hks).2
  refine ⟨_, List.filter_sublist, ?_, hcuts.closersAfterComma_kept hchain⟩
  rw [hstream]
  exact hkept

end Document

end AnnotationEdit

import AnnotationEdit.Proofs.Syntax.Replacing

/-!
# One assignment more or less

A target whose assignments stand in parentheses, between others or not, can have one more in front
of any of these: tokens that write it and a comma are put in front of the tokens of its neighbour
(`Document.parse_in_front`). What a file says without one assignment is what it says with that
taken out of the list of its target (`File.contentWithout_assignment`).
-/

namespace AnnotationEdit

namespace Syntax

/-! ## One assignment less -/

/-- The node that the segments lead to, alone. -/
def Selection.only (path : List String) : Selection := (· == path)

namespace Selection

theorem only_below (front path : List String) : (only (front ++ path)).below front = only path := by
  funext rest
  rw [below, only, only, Bool.eq_iff_iff, beq_iff_eq, beq_iff_eq, List.append_cancel_left_eq]

/-- Below another member of a list nothing is selected. -/
theorem only_below_of_ne {name : String} {i j : Nat} (h : i ≠ j) (path : List String) :
    (only ([name, toString i] ++ path)).below [name, toString j] = none := by
  funext rest
  rw [below, only, none, beq_eq_false_iff_ne]
  intro heq
  exact h (Text.eq_of_toString (List.cons.inj (List.cons.inj heq).2).1).symm

theorem only_eq_false_of_ne {name : String} {i j : Nat} (h : i ≠ j) (path : List String) :
    only ([name, toString i] ++ path) [name, toString j] = false := by
  rw [← below_nil (only _), only_below_of_ne h]
  rfl

end Selection

section

variable {α : Type} {content : α → Selection → α}

theorem membersWithout_behind (name : String) (content : α → Selection → α) (path : List String) :
    ∀ (es : List α) {i k : Nat}, i < k →
      membersWithout name content (.only ([name, toString i] ++ path)) k es =
        es.map (content · .none)
  | [], _, _, _ => rfl
  | e :: es, i, k, hlt => by
      have hne : i ≠ k := Nat.ne_of_lt hlt
      rw [membersWithout, Selection.only_eq_false_of_ne hne, if_neg Bool.false_ne_true,
        Selection.only_below_of_ne hne,
        membersWithout_behind name content path es (Nat.lt_succ_of_lt hlt), List.map_cons]

theorem membersWithout_only (name : String) (content : α → Selection → α) :
    ∀ (es : List α) (i k : Nat),
      membersWithout name content (.only [name, toString (k + i)]) k es =
        (es.eraseIdx i).map (content · .none)
  | [], _, _ => rfl
  | e :: es, 0, k => by
      have hgone : Selection.only [name, toString (k + 0)] [name, toString k] = true :=
        beq_self_eq_true _
      rw [membersWithout, if_pos hgone, List.eraseIdx_zero, List.tail_cons]
      exact membersWithout_behind name content [] es (Nat.lt_succ_self k)
  | e :: es, i + 1, k => by
      have hne : k + (i + 1) ≠ k := by omega
      have hgone : Selection.only [name, toString (k + (i + 1))] [name, toString k] = false :=
        Selection.only_eq_false_of_ne hne []
      have hbelow : (Selection.only [name, toString (k + (i + 1))]).below [name, toString k] =
          .none := Selection.only_below_of_ne hne []
      have hnext : k + (i + 1) = k + 1 + i := by omega
      rw [membersWithout, if_neg (Bool.eq_false_iff.mp hgone), hbelow, hnext,
        membersWithout_only name content es i (k + 1), List.eraseIdx_cons_succ, List.map_cons]

theorem membersWithout_below (name : String) (content : α → Selection → α) {path : List String}
    (hpath : path ≠ []) : ∀ (es : List α) (i k : Nat) (e f : α), es[i]? = some e →
      content f .none = content e (.only path) →
      membersWithout name content (.only ([name, toString (k + i)] ++ path)) k es =
        (es.set i f).map (content · .none)
  | d :: es, 0, k, e, f, hi, hf => by
      obtain rfl := Option.some.inj hi
      have hgone : Selection.only ([name, toString (k + 0)] ++ path) [name, toString k] = false := by
        rw [Selection.only, beq_eq_false_iff_ne]
        intro heq
        exact hpath (List.self_eq_append_right.mp heq)
      rw [membersWithout, if_neg (Bool.eq_false_iff.mp hgone), List.set_cons_zero, List.map_cons,
        Nat.add_zero, Selection.only_below, hf,
        membersWithout_behind name content path es (Nat.lt_succ_self k)]
  | d :: es, i + 1, k, e, f, hi, hf => by
      have hne : k + (i + 1) ≠ k := by omega
      have hnext : k + (i + 1) = k + 1 + i := by omega
      rw [membersWithout, if_neg (Bool.eq_false_iff.mp (Selection.only_eq_false_of_ne hne path)),
        Selection.only_below_of_ne hne, hnext,
        membersWithout_below name content hpath es i (k + 1) e f hi hf, List.set_cons_succ,
        List.map_cons]

end

/-- A file with another target in the place of one. -/
theorem File.graft_target {f : File} {k : Nat} {t : Target} (ht : f.targets[k]? = some t)
    (u : Target) : f.graft ⟨["targets", toString k]⟩ (.target u) =
      { f with targets := f.targets.set k u } := by
  rw [File.graft, Node.graft_child (Node.target_mem_children ht), Node.setChild_target,
    changeAt_toString ht]
  rfl

/-- Without an assignment, a file says what it says with the target that lacks it. -/
theorem File.contentWithout_assignment {f : File} {k i : Nat} {t : Target}
    (ht : f.targets[k]? = some t) :
    f.contentWithout (· == ⟨["targets", toString k, "assignments", toString i]⟩) =
      (f.graft ⟨["targets", toString k]⟩
        (.target { t with assignments := t.assignments.eraseIdx i })).content := by
  have hselected : (fun path => (Pointer.mk path ==
      ⟨["targets", toString k, "assignments", toString i]⟩)) =
      Selection.only (["targets", toString (0 + k)] ++ ["assignments", toString (0 + i)]) := by
    funext path
    rw [Selection.only, Nat.zero_add, Nat.zero_add, Bool.eq_iff_iff, beq_iff_eq, beq_iff_eq,
      Pointer.mk.injEq]
    rfl
  have htarget : ({ t with assignments := t.assignments.eraseIdx i } : Target).contentWithout .none =
      t.contentWithout (.only ["assignments", toString (0 + i)]) := by
    rw [Target.contentWithout, Target.contentWithout, membersWithout_none, membersWithout_only]
  rw [graft_target ht, content, contentWithout, contentWithout, hselected,
    membersWithout_below "targets" Target.contentWithout (List.cons_ne_nil _ _) f.targets k 0 t _
      ht htarget]
  exact congrArg _ (membersWithout_none _ _ _ _).symm

/-! ## One assignment more -/

theorem insertIdx_append_left {α : Type} {c : α} {bs : List α} : ∀ {as : List α} {i : Nat},
    i ≤ as.length → (as ++ bs).insertIdx i c = as.insertIdx i c ++ bs
  | _, 0, _ => rfl
  | a :: as, i + 1, h => by
      rw [List.cons_append, List.insertIdx_succ_cons, List.insertIdx_succ_cons,
        insertIdx_append_left (Nat.le_of_succ_le_succ h), List.cons_append]

theorem insertIdx_append_right {α : Type} {c : α} {bs : List α} : ∀ {as : List α} {i : Nat},
    as.length ≤ i → (as ++ bs).insertIdx i c = as ++ bs.insertIdx (i - as.length) c
  | [], _, _ => rfl
  | a :: as, i + 1, h => by
      rw [List.cons_append, List.insertIdx_succ_cons, List.length_cons, Nat.succ_sub_succ,
        insertIdx_append_right (Nat.le_of_succ_le_succ h), List.cons_append]

section

variable {vocabulary : Vocabulary} {ts : List Token}

/-- Where another member may stand in front of one. -/
theorem exists_gap_of_commaSeparated {α : Type} {written : α → List Token → Prop} :
    ∀ {es : List α} {ts : List Token} {i : Nat} {e : α}, commaSeparated written es ts →
      es[i]? = some e → ∃ front us back, ts = front ++ (us ++ back) ∧ written e us ∧
        ∀ f ws comma, written f ws → comma.IsMark "," →
          commaSeparated written (es.insertIdx i f) (front ++ (ws ++ comma :: (us ++ back)))
  | d :: es, ts, 0, e, h, hi => by
      obtain rfl := Option.some.inj hi
      have hfront : ∀ f ws comma, written f ws → comma.IsMark "," →
          commaSeparated written (f :: d :: es) (ws ++ comma :: ts) := fun f ws comma hf hcomma =>
        Or.inr ⟨ws, comma, ts, rfl, hf, hcomma, h⟩
      rcases h with ⟨hd, rfl⟩ | ⟨us, comma, vs, rfl, hd, _⟩
      · refine ⟨[], ts, [], (List.append_nil ts).symm, hd, fun f ws comma hf hcomma => ?_⟩
        rw [List.append_nil]
        exact hfront f ws comma hf hcomma
      · exact ⟨[], us, comma :: vs, rfl, hd, hfront⟩
  | d :: es, ts, i + 1, e, h, hi => by
      rw [List.getElem?_cons_succ] at hi
      rcases h with ⟨_, rfl⟩ | ⟨us, comma, vs, rfl, hd, hcomma, hes⟩
      · cases hi
      · obtain ⟨front, ws, back, rfl, he, hfit⟩ := exists_gap_of_commaSeparated hes hi
        refine ⟨us ++ comma :: front, ws, back, ?_, he, fun f xs c hf hc => Or.inr ?_⟩
        · simp only [List.append_assoc, List.cons_append]
        · refine ⟨us, comma, front ++ (xs ++ c :: (ws ++ back)), ?_, hd, hcomma, hfit f xs c hf hc⟩
          simp only [List.append_assoc, List.cons_append]

/-- Where another assignment may stand in front of one in parentheses. -/
theorem AssignmentsWrittenAs.exists_gap {as : List Assignment} {compound : Option Range}
    (h : AssignmentsWrittenAs vocabulary as compound ts) : ∀ {i : Nat} {a : Assignment},
      as[i]? = some a → a.atSign = none → ∃ front us back, ts = front ++ (us ++ back) ∧
        a.WrittenAs vocabulary none us ∧
        ∀ b ws comma, Assignment.WrittenAs vocabulary none b ws → comma.IsMark "," →
          AssignmentsWrittenAs vocabulary (as.insertIdx i b) compound
            (front ++ (ws ++ comma :: (us ++ back))) := by
  induction h with
  | nil =>
      intro i a hi
      cases hi
  | @bare sign b as compound us vs hsign hb has ih =>
      intro i a hi hnone
      cases i with
      | zero =>
          obtain rfl := Option.some.inj hi
          rw [hb.atSign_eq] at hnone
          cases hnone
      | succ i =>
          obtain ⟨front, ws, back, rfl, ha, hfit⟩ := ih hi hnone
          refine ⟨sign :: (us ++ front), ws, back, ?_, ha, fun c xs comma hc hcomma => ?_⟩
          · simp only [List.cons_append, List.append_assoc]
          · rw [List.insertIdx_succ_cons, List.cons_append, List.append_assoc]
            exact .bare hsign hb (hfit c xs comma hc hcomma)
  | @compound sign opening closing items as more us vs hsign hopening hitems hclosing has ih =>
      intro i a hi hnone
      by_cases hlt : i < items.length
      · rw [List.getElem?_append_left hlt] at hi
        obtain ⟨front, ws, back, rfl, ha, hfit⟩ := exists_gap_of_commaSeparated hitems hi
        refine ⟨sign :: opening :: front, ws, back ++ closing :: vs, ?_, ha,
          fun c xs comma hc hcomma => ?_⟩
        · simp only [List.cons_append, List.append_assoc]
        · rw [insertIdx_append_left (Nat.le_of_lt hlt)]
          have hwritten := AssignmentsWrittenAs.compound hsign hopening (hfit c xs comma hc hcomma)
            hclosing has
          simp only [List.cons_append, List.append_assoc] at hwritten ⊢
          exact hwritten
      · have hle := Nat.le_of_not_lt hlt
        rw [List.getElem?_append_right hle] at hi
        obtain ⟨front, ws, back, rfl, ha, hfit⟩ := ih hi hnone
        refine ⟨sign :: opening :: (us ++ closing :: front), ws, back, ?_, ha,
          fun c xs comma hc hcomma => ?_⟩
        · simp only [List.cons_append, List.append_assoc]
        · rw [insertIdx_append_right hle]
          have hwritten := AssignmentsWrittenAs.compound hsign hopening hitems hclosing
            (hfit c xs comma hc hcomma)
          simp only [List.cons_append, List.append_assoc] at hwritten ⊢
          exact hwritten

end

/-- An assignment starts with the first name of its term. -/
theorem Assignment.WrittenAs.head_kind {vocabulary : Vocabulary} {a : Assignment}
    {sign : Option Range} {ts : List Token} (h : a.WrittenAs vocabulary sign ts) :
    ∃ t us, ts = t :: us ∧ t.kind = .identifier := by
  cases a with
  | single a =>
      obtain ⟨⟨_, _, _, rfl, ⟨i, is, t, us, _, rfl, hi, _⟩, _⟩, _⟩ := h
      exact ⟨t, _, rfl, hi.1.1⟩
  | group g =>
      obtain ⟨_, _, _, _, _, _, rfl, ⟨i, is, t, us, _, rfl, hi, _⟩, _⟩ := h
      exact ⟨t, _, rfl, hi.1.1⟩

end Syntax

namespace Document

open Syntax (Node)

variable {uri text : String} {c : Configuration} {d : Document}

theorem parse_in_front (h : parse uri text c = .ok d) {k i : Nat} {t : Syntax.Target}
    {a : Syntax.Assignment} (ht : d.syntaxTree.targets[k]? = some t)
    (ha : t.assignments[i]? = some a) (hsign : a.atSign = none) {cs : List Char}
    {P : Syntax.Assignment → Prop}
    (hcs : Lexer.Spells Lexer.Anything cs fun ts => ∃ b us comma, ts = us ++ [comma] ∧
      Syntax.Assignment.WrittenAs c.aliases none b us ∧ comma.IsMark "," ∧ P b) (hne : cs ≠ [])
    (hrelieves : ∀ u ∈ d.tokens.tokens.toList, u.kind = .identifier →
      Lexer.Relieves u.text.toList cs) :
    ∃ d' b, parse uri (String.ofList (Lexer.inserted text.toList a.range.start cs)) c = .ok d' ∧
      P b ∧ d'.syntaxTree.content = (d.syntaxTree.graft ⟨["targets", toString k]⟩
        (.target { t with assignments := t.assignments.insertIdx i b })).content := by
  obtain ⟨tokens, _, hread, hplain, _⟩ := tokens_of_parse h
  obtain ⟨front, us, back, hcode, ⟨as, compound, heq, _, has⟩, _, _, hput⟩ :=
    Syntax.grafts_target (written_file h) ht
  obtain ⟨kind, name, nameRange, range, compound', as'⟩ := t
  obtain ⟨_, _, _, _, rfl, rfl⟩ := Syntax.Target.mk.inj (Node.target.inj heq)
  obtain ⟨front', ws, back', rfl, hwritten, hfit⟩ := has.exists_gap ha hsign
  obtain ⟨first, ws', rfl, hkind⟩ := hwritten.head_kind
  have hstart : a.range.start = first.range.start := by
    obtain ⟨u, _, hu, _, hrange⟩ := Syntax.spans_assignment hwritten
    obtain rfl := Option.some.inj hu
    rw [hrange]
  have hsplit : d.tokens.tokens.toList.filter Token.isCode =
      (front ++ front') ++ first :: (ws' ++ back' ++ back) := by
    rw [hcode]
    simp only [List.append_assoc, List.cons_append]
  obtain ⟨before, after, hall, hbefore, hfirst, hafter⟩ := exists_of_filter_eq hsplit
  have htokens : tokens = before.map Token.plain ++ first.plain :: after.map Token.plain := by
    rw [← hplain, hall, List.map_append, List.map_cons]
  have hmem : first ∈ d.tokens.tokens.toList := by
    rw [hall]
    exact List.mem_append_right _ List.mem_cons_self
  rw [htokens] at hread
  obtain ⟨ts, after', ⟨b, xs, comma, rfl, hb, hcomma, hP⟩, htscode, hrespells, hnew⟩ :=
    Lexer.exists_insertion_in_front hread hcs hne (hrelieves first hmem hkind)
  have hinserted := hfit b xs comma hb hcomma
  have hnil : as'.insertIdx i b = [] → as' = [] := by
    intro hnil
    have hlength := List.length_insertIdx_of_le_length
      (Nat.le_of_lt (List.getElem?_eq_some_iff.mp ha).1) b
    rw [hnil] at hlength
    cases hlength
  obtain ⟨n, hn, hcontent, _⟩ := hput _ _ _ ⟨_, _, rfl, hnil, hinserted⟩ rfl
  have hspelled := @respells_spliced before (first :: after) _ _ hrespells htscode
  rw [hbefore, List.filter_cons_of_pos hfirst, hafter] at hspelled
  have hroot : d.syntaxTree.resolve? .root = some (.file d.syntaxTree) := rfl
  have hchild := Node.target_mem_children ht
  obtain ⟨d', hd', hd'content⟩ := exists_parse_of_graft h hroot hchild hn hcontent hnew (by
      simpa only [List.append_assoc, List.cons_append, List.nil_append] using hspelled)
  rw [hstart]
  exact ⟨d', b, hd', hP, hd'content⟩

end Document

end AnnotationEdit

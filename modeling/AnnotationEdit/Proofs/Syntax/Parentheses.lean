import AnnotationEdit.Proofs.Syntax.Assignments
import AnnotationEdit.Proofs.Syntax.Refilling

/-!
# Lists to append to

New members of a record, a collection or a group are appended to the list in its brackets, new
annotations of a target with parentheses to its last list in parentheses. Whatever else is written in
that list, the file with it is the old one with other members from the first one of that list on
(`Document.exists_listed`).
-/

namespace AnnotationEdit

open Syntax (Node Bracketed Target Assignment commaSeparated)

/-- The number of the first assignment in the last list in parentheses of a target. There is none if
the list is empty or if an assignment with a sign of its own follows it. -/
def Syntax.Target.lastList? (t : Target) (tokens : List Token) : Option Nat := do
  let r ← t.compound
  let opening ← (tokens.filter fun u => u.is "(" && decide (u.range.stop ≤ r.stop)).getLast?
  let k ← t.assignments.findIdx? fun a => decide (opening.range.stop ≤ a.range.start)
  if (t.assignments.drop k).all (·.atSign.isNone) then some k else none

/-- The roles of tokens do not matter. -/
theorem Syntax.Target.lastList?_plain (t : Target) (tokens : List Token) :
    t.lastList? (tokens.map Token.plain) = t.lastList? tokens := by
  have hopening : ∀ r : Range, ((tokens.map Token.plain).filter fun u =>
      u.is "(" && decide (u.range.stop ≤ r.stop)).getLast? =
      ((tokens.filter fun u =>
        u.is "(" && decide (u.range.stop ≤ r.stop)).getLast?).map Token.plain := by
    intro r
    rw [List.filter_map, List.getLast?_map]
    rfl
  cases hr : t.compound with
  | none => simp only [lastList?, hr, Option.bind_eq_bind, Option.bind_none]
  | some r =>
      simp only [lastList?, hr, Option.bind_eq_bind, Option.bind_some, hopening, Option.bind_map]
      rfl

theorem Syntax.Target.of_lastList? {t : Target} {tokens : List Token} {k : Nat}
    (h : t.lastList? tokens = some k) :
    k < t.assignments.length ∧ ∀ a ∈ t.assignments.drop k, a.atSign = none := by
  obtain ⟨_, _, hk⟩ := Option.bind_eq_some_iff.mp h
  obtain ⟨_, _, hk⟩ := Option.bind_eq_some_iff.mp hk
  obtain ⟨j, hfind, hk⟩ := Option.bind_eq_some_iff.mp hk
  split at hk
  · next hunsigned =>
    obtain rfl := Option.some.inj hk
    exact ⟨(List.findIdx?_eq_some_iff_getElem.mp hfind).1, fun a ha =>
      Option.isNone_iff_eq_none.mp (List.all_eq_true.mp hunsigned a ha)⟩
  · cases hk

namespace Document

/-- The number of the first member in the list that new members are appended to. -/
def firstListed? (d : Document) : Node → Option Nat
  | .target t => t.lastList? d.tokens.tokens.toList
  | .record _ | .collection _ | .groupItems _ => some 0
  | _ => none

variable {uri text : String} {c : Configuration} {d : Document} {q : Pointer} {n : Node} {k : Nat}

theorem firstListed?_of_isBracketed (h : n.isBracketed = true) : d.firstListed? n = some 0 := by
  cases n with
  | record r => rfl
  | collection c => rfl
  | groupItems i => rfl
  | _ => cases h

theorem firstListed?_cases (h : d.firstListed? n = some k) :
    (n.isBracketed = true ∧ k = 0) ∨
      ∃ t r, n = .target t ∧ t.lastList? d.tokens.tokens.toList = some k ∧ t.compound = some r := by
  cases n with
  | target t =>
      have hlast : t.lastList? d.tokens.tokens.toList = some k := h
      obtain ⟨r, hr, _⟩ := Option.bind_eq_some_iff.mp hlast
      exact Or.inr ⟨t, r, rfl, hlast, hr⟩
  | record r => exact Or.inl ⟨rfl, (Option.some.inj h).symm⟩
  | collection c => exact Or.inl ⟨rfl, (Option.some.inj h).symm⟩
  | groupItems i => exact Or.inl ⟨rfl, (Option.some.inj h).symm⟩
  | _ => cases h

theorem isList_of_firstListed? (h : d.firstListed? n = some k) : n.isList = true := by
  rcases firstListed?_cases h with ⟨hlist, _⟩ | ⟨t, _, rfl, _⟩
  · exact Node.isList_of_isBracketed hlist
  · rfl

theorem lt_length_of_firstListed? (h : d.firstListed? n = some k) (hne : n.members ≠ []) :
    k < n.members.length := by
  rcases firstListed?_cases h with ⟨_, rfl⟩ | ⟨t, _, rfl, hlast, _⟩
  · exact List.length_pos_iff.mpr hne
  · have hmembers : (Node.target t).members = t.assignments.map Node.ofAssignment :=
      Node.members_eq_of_numbered rfl
    rw [hmembers, List.length_map]
    exact (Syntax.Target.of_lastList? hlast).1

/-- The members of a list from a number on stand between two brackets. A text with the tokens of others
between these is read as the file with the list of the members in front and these others. -/
structure Listed (d : Document) (uri : String) (c : Configuration) (q : Pointer) (n : Node) (k : Nat)
    (front us back : List Token) (opening closing : Token) : Prop where
  code : d.tokens.tokens.toList.filter Token.isCode = front ++ opening :: (us ++ closing :: back)
  bracketed : Bracketed (n.dropMembers k) opening closing us
  ends : ∀ t r, n = .target t → t.compound = some r → r.stop = closing.range.stop
  reread : ∀ ms vs ks newText, ms ≠ [] → commaSeparated n.Lists ms vs →
    Lexer.Codes newText.toList ks →
    Respells ks ((front ++ opening :: (vs ++ closing :: back)).map Token.plain) →
    ∃ d', parse uri newText c = .ok d' ∧ d'.syntaxTree.content =
      (d.syntaxTree.graft q (n.withMembers (n.members.take k ++ ms))).content

/-- The last parenthesis that opens up to some place. -/
theorem getLast?_opening {N : Nat} {ts front us back : List Token} {opening closing : Token}
    (hts : Token.Ordered N (ts.filter Token.isCode))
    (hcode : ts.filter Token.isCode = front ++ opening :: (us ++ closing :: back))
    (hopening : opening.is "(" = true) (hus : ∀ t ∈ us, t.is "(" = false)
    (hclosing : closing.is "(" = false) :
    (ts.filter fun u => u.is "(" && decide (u.range.stop ≤ closing.range.stop)).getLast? =
      some opening := by
  have hfilter : (ts.filter fun u => u.is "(" && decide (u.range.stop ≤ closing.range.stop)) =
      (ts.filter Token.isCode).filter fun u =>
        u.is "(" && decide (u.range.stop ≤ closing.range.stop) := by
    rw [List.filter_filter]
    refine List.filter_congr fun u _ => ?_
    cases hparen : u.is "(" with
    | true =>
        rw [Token.isCode, Token.isComment, Token.kind_of_is hparen]
        exact (Bool.and_true _).symm
    | false => rfl
  have hordered := hts
  rw [hcode] at hordered
  have hopens : opening.range.stop ≤ closing.range.stop := by
    have hbefore := (List.pairwise_cons.mp (List.pairwise_append.mp hordered.apart).2.1).1 closing
      (by simp)
    exact le_trans hbefore (le_of_lt (hordered.proper closing (by simp)))
  have hback : (back.filter fun u => u.is "(" && decide (u.range.stop ≤ closing.range.stop)) = [] := by
    refine List.filter_eq_nil_iff.mpr fun u hu htest => ?_
    have hle := of_decide_eq_true (Bool.and_eq_true_iff.mp htest).2
    have hbehind := List.pairwise_append.mp (List.pairwise_cons.mp
      (List.pairwise_append.mp hordered.apart).2.1).2
    have hbefore := (List.pairwise_cons.mp hbehind.2.1).1 u hu
    exact absurd (lt_of_le_of_lt hbefore (hordered.proper u (by simp [hu]))) (not_lt_of_ge hle)
  have hinner : (us.filter fun u => u.is "(" && decide (u.range.stop ≤ closing.range.stop)) = [] :=
    List.filter_eq_nil_iff.mpr fun u hu => by rw [hus u hu]; exact Bool.false_ne_true
  rw [hfilter, hcode, List.filter_append, List.filter_cons, hopening, decide_eq_true hopens,
    List.filter_append, hinner, List.filter_cons, hclosing, hback]
  exact List.getLast?_concat ..

/-- The last list in parentheses holds the assignments from its first one on. -/
theorem lastList?_eq_some {N : Nat} {vocabulary : Vocabulary} {t : Target} {r : Range}
    {before items after : List Assignment} {front front' us back back' : List Token}
    {opening closing : Token} (hts : Token.Ordered N (d.tokens.tokens.toList.filter Token.isCode))
    (hcode : d.tokens.tokens.toList.filter Token.isCode =
      front' ++ opening :: (us ++ closing :: back'))
    (hcompound : t.compound = some r) (has : t.assignments = before ++ (items ++ after))
    (hlast : Syntax.LastList vocabulary before items after r front us back opening closing)
    (hfront : front.Sublist front') (hback : back.Sublist back')
    (hk : t.lastList? d.tokens.tokens.toList = some k) :
    k = before.length ∧ after = [] := by
  have hstop : r.stop = closing.range.stop := by
    obtain ⟨_, _, _, _, _, _, _, rfl⟩ := hlast.range
    rfl
  have hopening := getLast?_opening hts hcode hlast.opens.1
    (fun u hu => (Syntax.inmost_assignments hlast.listed u hu).2.1)
    (Token.is_eq_false_of_is hlast.closes.1 (by decide))
  rw [hcode] at hts
  obtain ⟨_, hrest, hacross⟩ := List.pairwise_append.mp hts.apart
  have hproper := hts.proper opening (by simp)
  have hbefore : ∀ a ∈ before, decide (opening.range.stop ≤ a.range.start) = false := by
    intro a ha
    obtain ⟨ws, hws, _, hwritten⟩ := hlast.inFront.exists_written a ha
    obtain ⟨⟨u, hu, hstart⟩, _⟩ := (Syntax.spans_assignment hwritten).exists_mem
    have hmem := hfront.subset (hws.subset hu)
    have hlt := hts.proper u (List.mem_append_left _ hmem)
    rw [hstart]
    exact decide_eq_false (not_le_of_gt
      (lt_trans (lt_of_lt_of_le hlt (hacross u hmem opening List.mem_cons_self)) hproper))
  have hbehind : ∀ a ∈ items ++ after, decide (opening.range.stop ≤ a.range.start) = true := by
    intro a ha
    have hwritten : ∃ ws, (∀ u ∈ ws, u ∈ us ++ closing :: back') ∧ Spans ws a.range := by
      rcases List.mem_append.mp ha with ha | ha
      · obtain ⟨ws, hws, hwritten⟩ :=
          (Syntax.laid_of_commaSeparated hlast.listed).exists_written a ha
        exact ⟨ws, fun u hu => List.mem_append_left _ (hws.subset hu),
          Syntax.spans_assignment hwritten⟩
      · obtain ⟨ws, hws, _, hwritten⟩ := hlast.behind.exists_written a ha
        exact ⟨ws, fun u hu => List.mem_append_right _ (List.mem_cons_of_mem _
          (hback.subset (hws.subset hu))), Syntax.spans_assignment hwritten⟩
    obtain ⟨ws, hws, hspans⟩ := hwritten
    obtain ⟨⟨u, hu, hstart⟩, _⟩ := hspans.exists_mem
    rw [hstart]
    exact decide_eq_true ((List.pairwise_cons.mp hrest).1 u (hws u hu))
  simp only [Target.lastList?, hcompound, hstop, hopening, Option.bind_eq_bind, Option.bind_some] at hk
  obtain ⟨j, hfind, hall⟩ := Option.bind_eq_some_iff.mp hk
  have hj : j = before.length := by
    rw [has, List.findIdx?_append, List.findIdx?_eq_none_iff.mpr hbefore, Option.none_or] at hfind
    cases hrest : items ++ after with
    | nil =>
        rw [hrest] at hfind
        cases hfind
    | cons a as =>
        rw [hrest] at hfind hbehind
        rw [List.findIdx?_cons, hbehind a List.mem_cons_self] at hfind
        exact (Option.some.inj hfind).symm.trans (Nat.zero_add _)
  split at hall
  · next hunsigned =>
    obtain rfl := Option.some.inj hall
    refine ⟨hj, List.eq_nil_iff_forall_not_mem.mpr fun a ha => ?_⟩
    rw [hj, has, List.drop_left] at hunsigned
    have hnone := List.all_eq_true.mp hunsigned a (List.mem_append_right _ ha)
    have hsigned := hlast.signed a ha
    rw [Option.isNone_iff_eq_none.mp hnone] at hsigned
    cases hsigned
  · cases hall

theorem listed_of_lastList? (h : parse uri text c = .ok d) (hc : c.aliases = .standard) {t : Target}
    {r : Range} (hn : d.syntaxTree.resolve? q = some (.target t))
    (hk : t.lastList? d.tokens.tokens.toList = some k)
    (hr : t.compound = some r) :
    ∃ front us back opening closing,
      d.Listed uri c q (.target t) k front us back opening closing := by
  obtain ⟨i, rfl, ht⟩ := exists_targetIndex h hn
  obtain ⟨front, us, back, hcode, ⟨as, compound, heq, _, has⟩, _, _, hput⟩ :=
    Syntax.grafts_target (written_file h) ht
  have hordered := ordered_code h
  rw [hc] at has hput
  obtain rfl : t.assignments = as := by rw [Node.target.inj heq]
  obtain rfl : t.compound = compound := by rw [Node.target.inj heq]
  have hus : Token.Ordered d.tokens.size us := hordered.sublist (by
    rw [hcode]
    exact (List.sublist_append_left us back).trans (List.sublist_append_right front _))
  obtain ⟨before, items, after, front', vs, back', opening, closing, hsplit, rfl, hlast⟩ :=
    has.exists_lastList hus hr
  have hcode' : d.tokens.tokens.toList.filter Token.isCode =
      (front ++ front') ++ opening :: (vs ++ closing :: (back' ++ back)) := by
    rw [hcode]
    simp only [List.append_assoc, List.cons_append]
  obtain ⟨rfl, rfl⟩ := lastList?_eq_some hordered hcode' hr hsplit hlast
    (List.sublist_append_right front front') (List.sublist_append_left back' back) hk
  rw [List.append_nil] at hsplit
  have hmembers : (Node.target t).members =
      before.map Node.ofAssignment ++ items.map Node.ofAssignment := by
    rw [← List.map_append, ← hsplit]
    exact Node.members_eq_of_numbered rfl
  refine ⟨front ++ front', vs, back' ++ back, opening, closing, hcode', ⟨hlast.opens, hlast.closes,
    fun hlist => Bool.noConfusion hlist, ?_⟩, ?_, ?_⟩
  · rw [Node.lists_dropMembers, Node.members_dropMembers rfl, hmembers,
      List.drop_left' (List.length_map _)]
    exact Syntax.commaSeparated_map (fun a us ha => ⟨a, rfl, ha⟩) hlast.listed
  · intro t' r' heq' hr'
    obtain rfl := Node.target.inj heq'
    obtain rfl := Option.some.inj (hr.symm.trans hr')
    obtain ⟨_, _, _, _, _, _, _, hrange⟩ := hlast.range
    rw [hrange]
  · intro ms ws ks newText hne hms hcodes hrespells
    obtain ⟨others, rfl, hothers⟩ := Syntax.exists_of_commaSeparated (fun m us hm => hm) hms
    have hwritten := hlast.refills others ws hothers
    rw [List.append_nil, ← hr] at hwritten
    have hnil : before ++ others = [] → t.assignments = [] := fun hnil =>
      absurd (congrArg (List.map Node.ofAssignment) (List.append_eq_nil_iff.mp hnil).2) hne
    have hsame : (Node.target t).withMembers ((Node.target t).members.take before.length ++
        others.map Node.ofAssignment) = .target { t with assignments := before ++ others } := by
      rw [hmembers, List.take_left' (List.length_map _), ← List.map_append, Node.withMembers,
        Node.filterMap_part? Node.wraps_assignment]
    obtain ⟨m, hm, hcontent, _⟩ :=
      hput _ _ _ ⟨_, _, rfl, hnil, hwritten⟩ (congrArg Node.content hsame)
    rw [← hc] at hm
    obtain ⟨tokens, hread, htokens⟩ := hcodes .origin
    have hroot : d.syntaxTree.resolve? .root = some (.file d.syntaxTree) := rfl
    refine exists_parse_of_graft h hroot (Node.target_mem_children ht) hm hcontent hread ?_
    have hall : front ++ (front' ++ opening :: (ws ++ closing :: back') ++ back) =
        front ++ front' ++ opening :: (ws ++ closing :: (back' ++ back)) := by
      simp only [List.append_assoc, List.cons_append]
    rw [hall]
    exact (show Respells _ ks from htokens).trans hrespells

/-- The tokens of the list that new members are appended to. -/
theorem exists_listed (h : parse uri text c = .ok d) (hc : c.aliases = .standard)
    (hn : d.syntaxTree.resolve? q = some n) (hk : d.firstListed? n = some k) :
    ∃ front us back opening closing, d.Listed uri c q n k front us back opening closing := by
  rcases firstListed?_cases hk with ⟨hlist, rfl⟩ | ⟨t, r, rfl, hlast, hr⟩
  · obtain ⟨front, opening, us, closing, back, hcode, hbracketed, hreread⟩ :=
      exists_list h hn hlist
    refine ⟨front, us, back, opening, closing, hcode, ?_, ?_,
      fun ms vs ks newText _ => hreread ms vs ks newText⟩
    · rwa [Node.dropMembers_zero hlist]
    · rintro t r rfl
      cases hlist
  · exact listed_of_lastList? h hc hn hlast hr

end Document

end AnnotationEdit

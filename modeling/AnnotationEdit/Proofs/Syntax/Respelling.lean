import AnnotationEdit.Proofs.Syntax.Remainder

/-!
# Respelled files

Tokens that respell others write the same content, in other places. What is proved for names and
literals in `Proofs/Syntax/Content` is carried up here through values, annotations and targets to
whole files (`items_respelled`). Nothing is asked of the places of the tokens, so parts that were
written in different places can be put together first and respelled afterwards.
-/

namespace AnnotationEdit.Syntax

/-! ## Lists -/

section Lists

variable {α : Type} {written : α → List Token → Prop} (content : α → α)

theorem commaSeparated_respelled : ∀ {es : List α} {ts ks : List Token},
    (∀ e us ks, us.length ≤ ts.length → written e us → Respells ks us →
      ∃ f, written f ks ∧ content f = content e) →
    commaSeparated written es ts → Respells ks ts →
    ∃ fs, commaSeparated written fs ks ∧ fs.map content = es.map content
  | [], ts, ks, _, h, hks => by
      rw [commaSeparated] at h
      rw [h] at hks
      exact ⟨[], hks.nil, rfl⟩
  | e :: es, ts, ks, hwritten, h, hks => by
      rcases h with ⟨he, rfl⟩ | ⟨us, comma, vs, rfl, he, hcomma, hes⟩
      · obtain ⟨f, hf, hcontent⟩ := hwritten e ts ks (Nat.le_refl _) he hks
        exact ⟨[f], Or.inl ⟨hf, rfl⟩, congrArg (fun g => [g]) hcontent⟩
      · obtain ⟨us', ks, rfl, hus, hks⟩ := hks.append
        obtain ⟨k, vs', rfl, hk, hvs⟩ := hks.cons
        have hlength : (us ++ comma :: vs).length = us.length + (vs.length + 1) := by
          rw [List.length_append, List.length_cons]
        obtain ⟨f, hf, hcontent⟩ := hwritten e us us' (by omega) he hus
        obtain ⟨fs, hfs, hcontents⟩ := commaSeparated_respelled
          (fun e ws ks hws => hwritten e ws ks (by omega)) hes hvs
        refine ⟨f :: fs, Or.inr ⟨us', k, vs', rfl, hf, hcomma.respelled hk, hfs⟩, ?_⟩
        rw [List.map_cons, List.map_cons, hcontent, hcontents]

theorem consecutive_respelled (hwritten : ∀ e us ks, written e us → Respells ks us →
      ∃ f, written f ks ∧ content f = content e) : ∀ {es : List α} {ts ks : List Token},
    consecutive written es ts → Respells ks ts →
    ∃ fs, consecutive written fs ks ∧ fs.map content = es.map content
  | [], ts, ks, h, hks => by
      rw [consecutive] at h
      rw [h] at hks
      exact ⟨[], hks.nil, rfl⟩
  | e :: es, ts, ks, h, hks => by
      obtain ⟨us, vs, rfl, he, hes⟩ := h
      obtain ⟨us', vs', rfl, hus, hvs⟩ := hks.append
      obtain ⟨f, hf, hcontent⟩ := hwritten e us us' he hus
      obtain ⟨fs, hfs, hcontents⟩ := consecutive_respelled hwritten hes hvs
      refine ⟨f :: fs, ⟨us', vs', rfl, hf, hfs⟩, ?_⟩
      rw [List.map_cons, List.map_cons, hcontent, hcontents]

end Lists

/-! ## Values -/

theorem afterColon_respelled {colon : Option Range} {value : Option Value} {ts ks : List Token}
    (hvalue : ∀ v us ks, us.length < ts.length → Value.WrittenAs v us → Respells ks us →
      ∃ w : Value, w.WrittenAs ks ∧ w.contentWithout .none = v.contentWithout .none)
    (h : valueAfterColon colon value ts) (hks : Respells ks ts) :
    ∃ colon' value', valueAfterColon colon' value' ks ∧ unplaced colon' = unplaced colon ∧
      valueWithout .none value' = valueWithout .none value := by
  cases value with
  | none =>
      rw [valueAfterColon] at h
      obtain ⟨rfl, rfl⟩ := h
      refine ⟨none, none, ?_, rfl, rfl⟩
      rw [valueAfterColon]
      exact ⟨rfl, hks.nil⟩
  | some v =>
      rw [valueAfterColon] at h
      obtain ⟨c, us, rfl, hc, rfl, hv⟩ := h
      obtain ⟨k, us', rfl, hk, hus⟩ := hks.cons
      obtain ⟨w, hw, hcontent⟩ := hvalue v us us' (Nat.lt_succ_self _) hv hus
      refine ⟨some k.range, some w, ?_, rfl, ?_⟩
      · rw [valueAfterColon]
        exact ⟨k, us', rfl, hc.respelled hk, rfl, hw⟩
      · rw [valueWithout, valueWithout, hcontent]

mutual

theorem value_respelled : ∀ (n : Nat) {v : Value} {ts ks : List Token}, ts.length < n →
    v.WrittenAs ts → Respells ks ts →
    ∃ w : Value, w.WrittenAs ks ∧ w.contentWithout .none = v.contentWithout .none
  | n + 1, .record ⟨range, entries⟩, ts, ks, hlen, h, hks => by
      rw [Value.WrittenAs] at h
      obtain ⟨opening, closing, us, rfl, ho, hc, _, hentries⟩ := h
      rw [List.length_cons, List.length_append, List.length_singleton] at hlen
      obtain ⟨k, ks, rfl, hk, hks⟩ := hks.cons
      obtain ⟨us', ks, rfl, hus, hks⟩ := hks.append
      obtain ⟨k', rfl, hk'⟩ := hks.singleton
      obtain ⟨fs, hfs, hcontent⟩ := commaSeparated_respelled (Entry.contentWithout · .none)
        (fun e ws ks hws he hks => entry_respelled n (by omega) he hks)
        ((entriesWrittenAs_iff entries us).mp hentries) hus
      refine ⟨.record ⟨⟨k.range.start, k'.range.stop⟩, fs⟩, ?_, ?_⟩
      · rw [Value.WrittenAs]
        exact ⟨k, k', us', rfl, ho.respelled hk, hc.respelled hk', rfl,
          (entriesWrittenAs_iff fs us').mpr hfs⟩
      · rw [Value.contentWithout, Value.contentWithout, entriesWithout_eq, entriesWithout_eq,
          membersWithout_none, membersWithout_none, hcontent]
  | n + 1, .collection ⟨range, items⟩, ts, ks, hlen, h, hks => by
      rw [Value.WrittenAs] at h
      obtain ⟨opening, closing, us, rfl, ho, hc, _, hitems⟩ := h
      rw [List.length_cons, List.length_append, List.length_singleton] at hlen
      obtain ⟨k, ks, rfl, hk, hks⟩ := hks.cons
      obtain ⟨us', ks, rfl, hus, hks⟩ := hks.append
      obtain ⟨k', rfl, hk'⟩ := hks.singleton
      obtain ⟨fs, hfs, hcontent⟩ := commaSeparated_respelled (Value.contentWithout · .none)
        (fun v ws ks hws hv hks => value_respelled n (by omega) hv hks)
        ((valuesWrittenAs_iff items us).mp hitems) hus
      refine ⟨.collection ⟨⟨k.range.start, k'.range.stop⟩, fs⟩, ?_, ?_⟩
      · rw [Value.WrittenAs]
        exact ⟨k, k', us', rfl, ho.respelled hk, hc.respelled hk', rfl,
          (valuesWrittenAs_iff fs us').mpr hfs⟩
      · rw [Value.contentWithout, Value.contentWithout, valuesWithout_eq, valuesWithout_eq,
          membersWithout_none, membersWithout_none, hcontent]
  | n + 1, .primitive p, ts, ks, _, h, hks => by
      rw [Value.WrittenAs] at h
      obtain ⟨q, hq, hcontent⟩ := h.respelled hks
      refine ⟨.primitive q, ?_, ?_⟩
      · rw [Value.WrittenAs]
        exact hq
      · rw [Value.contentWithout, Value.contentWithout, hcontent]

theorem entry_respelled : ∀ (n : Nat) {e : Entry} {ts ks : List Token}, ts.length < n →
    e.WrittenAs ts → Respells ks ts →
    ∃ f : Entry, f.WrittenAs ks ∧ f.contentWithout .none = e.contentWithout .none
  | n + 1, .property ⟨range, name, colon, value⟩, ts, ks, hlen, h, hks => by
      rw [Entry.WrittenAs] at h
      obtain ⟨us, vs, rfl, hname, hvalue, _⟩ := h
      rw [List.length_append] at hlen
      obtain ⟨us', vs', rfl, hus, hvs⟩ := hks.append
      obtain ⟨name', hname', hnames⟩ := hname.respelled hus
      obtain ⟨colon', value', hvalue', hcolon, hcontent⟩ := afterColon_respelled
        (fun v ws ks hws hv hks => value_respelled n (by omega) hv hks) hvalue hvs
      refine ⟨.property ⟨⟨name'.range.start, Parser.endOf value' name'.range.stop⟩, name', colon',
        value'⟩, ?_, ?_⟩
      · rw [Entry.WrittenAs]
        exact ⟨us', vs', rfl, hname', hvalue', rfl⟩
      · rw [Entry.contentWithout, Entry.contentWithout, hnames, hcolon]
        exact congrArg (fun v => Entry.property ⟨_, _, _, v⟩) hcontent
  | n + 1, .embedded ⟨range, atSign, term, qualifier, colon, value, embedded⟩, ts, ks, hlen, h,
      hks => by
      rw [Entry.WrittenAs] at h
      obtain ⟨mark, opening, sign, us, qs, closing, vs, rfl, hmark, hopening, hsign, hterm,
        hqualifier, hclosing, hvalue, _, rfl, rfl⟩ := h
      simp only [List.length_append, List.length_cons] at hlen
      obtain ⟨k₁, ks, rfl, hk₁, hks⟩ := hks.cons
      obtain ⟨k₂, ks, rfl, hk₂, hks⟩ := hks.cons
      obtain ⟨k₃, ks, rfl, hk₃, hks⟩ := hks.cons
      obtain ⟨us', ks, rfl, hus, hks⟩ := hks.append
      obtain ⟨qs', ks, rfl, hqs, hks⟩ := hks.append
      obtain ⟨k₄, vs', rfl, hk₄, hvs⟩ := hks.cons
      obtain ⟨term', hterm', hterms⟩ := hterm.respelled hus
      obtain ⟨q', hq', hqq⟩ := qualifier_respelled hqualifier hqs
      obtain ⟨colon', value', hvalue', hcolon, hcontent⟩ := afterColon_respelled
        (fun v ws ks hws hv hks => value_respelled n (by omega) hv hks) hvalue hvs
      refine ⟨.embedded ⟨⟨k₁.range.start, Parser.endOf value' k₄.range.stop⟩, none, term', q',
        colon', value', true⟩, ?_, ?_⟩
      · rw [Entry.WrittenAs]
        exact ⟨k₁, k₂, k₃, us', qs', k₄, vs', rfl, hmark.respelled hk₁, hopening.respelled hk₂,
          hsign.respelled hk₃, hterm', hq', hclosing.respelled hk₄, hvalue', rfl, rfl, rfl⟩
      · rw [Entry.contentWithout, Entry.contentWithout, Annotation.contentWithout,
          Annotation.contentWithout, hterms, hqq, hcolon]
        exact congrArg (fun v => Entry.embedded ⟨_, _, _, _, _, v, _⟩) hcontent

end

/-! ## Annotations -/

theorem annotation_respelled {a : Annotation} {ts ks : List Token} {s : Option Range}
    (h : a.WrittenAs ts) (hks : Respells ks ts) (hs : unplaced s = unplaced a.atSign) :
    ∃ b : Annotation, b.WrittenAs ks ∧ b.atSign = s ∧
      b.contentWithout .none = a.contentWithout .none := by
  obtain ⟨range, atSign, term, qualifier, colon, value, embedded⟩ := a
  obtain ⟨us, qs, vs, rfl, hterm, hqualifier, hvalue, _, rfl⟩ := h
  obtain ⟨us', ks, rfl, hus, hks⟩ := hks.append
  obtain ⟨qs', vs', rfl, hqs, hvs⟩ := hks.append
  obtain ⟨term', hterm', hterms⟩ := hterm.respelled hus
  obtain ⟨q', hq', hqq⟩ := qualifier_respelled hqualifier hqs
  obtain ⟨colon', value', hvalue', hcolon, hcontent⟩ := afterColon_respelled
    (fun v ws ks hws hv hks => value_respelled _ hws hv hks) hvalue hvs
  let head : Annotation := ⟨default, s, term', q', colon', value', false⟩
  refine ⟨⟨⟨term'.range.start, Parser.endOf value' head.headEnd⟩, s, term', q', colon', value',
    false⟩, ⟨us', qs', vs', rfl, hterm', hq', hvalue', rfl, rfl⟩, rfl, ?_⟩
  rw [ Annotation.contentWithout, Annotation.contentWithout, hterms, hqq, hcolon, hs]
  exact congrArg (fun v => Annotation.mk _ _ _ _ _ v _) hcontent

theorem assignment_respelled {vocabulary : Vocabulary} {a : Assignment} {ts ks : List Token}
    {atSign s : Option Range} (h : a.WrittenAs vocabulary atSign ts) (hks : Respells ks ts)
    (hs : unplaced s = unplaced atSign) :
    ∃ b : Assignment, b.WrittenAs vocabulary s ks ∧
      b.contentWithout .none = a.contentWithout .none := by
  cases a with
  | single a =>
      obtain ⟨hwritten, rfl, hsingle⟩ := h
      obtain ⟨b, hb, hbs, hcontent⟩ := annotation_respelled hwritten hks hs
      exact ⟨.single b, ⟨hb, hbs, isSingle_of_content hcontent hsingle⟩,
        congrArg Assignment.single hcontent⟩
  | group g =>
      obtain ⟨range, sign, name, colonRange, itemsRange, items⟩ := g
      obtain ⟨term, us, colon, opening, vs, closing, rfl, hterm, hlength, halias, hcolon, hopening,
        hclosing, hitems, hg⟩ := h
      obtain ⟨_, rfl, rfl, _, hitemsRange⟩ := Group.mk.inj hg
      obtain ⟨us', ks, rfl, hus, hks⟩ := hks.append
      obtain ⟨k, ks, rfl, hk, hks⟩ := hks.cons
      obtain ⟨k₁, ks, rfl, hk₁, hks⟩ := hks.cons
      obtain ⟨vs', ks, rfl, hvs, hks⟩ := hks.append
      obtain ⟨k₂, rfl, hk₂⟩ := hks.singleton
      obtain ⟨term', hterm', hterms⟩ := hterm.respelled hus
      obtain ⟨fs, hfs, hcontent⟩ := commaSeparated_respelled ( Annotation.contentWithout · .none)
        (fun a ws ks _ ha hks => by
          have hsign : unplaced none = unplaced a.atSign := by rw [ha.2]
          obtain ⟨b, hb, hbs, hba⟩ := annotation_respelled ha.1 hks hsign
          exact ⟨b, ⟨hb, hbs⟩, hba⟩) hitems hvs
      have hnames := Path.text_of_content hterms
      refine ⟨.group ⟨⟨term'.range.start, k₂.range.stop⟩, s, ⟨term'.text, term'.range⟩, k.range,
        ⟨⟨k₁.range.start, k₂.range.stop⟩, fs⟩⟩, ⟨term', us', k, k₁, vs', k₂, rfl, hterm', ?_, ?_,
        hcolon.respelled hk, hopening.respelled hk₁, hclosing.respelled hk₂, hfs, rfl⟩, ?_⟩
      · rw [Path.length_of_content hterms]
        exact hlength
      · rw [hnames]
        exact halias
      · have hnone : ∀ as : List Annotation, membersWithout "items" Annotation.contentWithout
            (Selection.below .none ["items"]) 0 as = as.map (·.contentWithout .none) :=
          membersWithout_none "items" _ 0
        simp only [Assignment.contentWithout, Group.contentWithout, GroupItems.contentWithout,
          Identifier.content, hs, hnames, hnone, hcontent]

theorem assignments_respelled {vocabulary : Vocabulary} {as : List Assignment}
    {compound : Option Range} {ts : List Token} (h : AssignmentsWrittenAs vocabulary as compound ts) :
    ∀ ks, Respells ks ts → ∃ bs compound', AssignmentsWrittenAs vocabulary bs compound' ks ∧
      unplaced compound' = unplaced compound ∧
      bs.map (·.contentWithout .none) = as.map (·.contentWithout .none) := by
  induction h with
  | nil =>
      intro ks hks
      refine ⟨[], none, ?_, rfl, rfl⟩
      rw [hks.nil]
      exact .nil
  | @bare sign _ _ _ _ _ hsign ha _ ih =>
      intro ks hks
      obtain ⟨k, ks, rfl, hk, hks⟩ := hks.cons
      obtain ⟨us', vs', rfl, hus, hvs⟩ := hks.append
      have hplace : unplaced (some k.range) = unplaced (some sign.range) := rfl
      obtain ⟨b, hb, hcontent⟩ := assignment_respelled ha hus hplace
      obtain ⟨bs, compound', hbs, hcompound, hcontents⟩ := ih vs' hvs
      refine ⟨b :: bs, compound', .bare (hsign.respelled hk) hb hbs, hcompound, ?_⟩
      rw [List.map_cons, List.map_cons, hcontent, hcontents]
  | compound hsign hopening hitems hclosing _ ih =>
      intro ks hks
      obtain ⟨k, ks, rfl, hk, hks⟩ := hks.cons
      obtain ⟨k₁, ks, rfl, hk₁, hks⟩ := hks.cons
      obtain ⟨us', ks, rfl, hus, hks⟩ := hks.append
      obtain ⟨k₂, vs', rfl, hk₂, hvs⟩ := hks.cons
      obtain ⟨fs, hfs, hcontent⟩ := commaSeparated_respelled (Assignment.contentWithout · .none)
        (fun a ws ks _ ha hks => assignment_respelled ha hks rfl) hitems hus
      obtain ⟨bs, compound', hbs, _, hcontents⟩ := ih vs' hvs
      refine ⟨fs ++ bs, _, .compound (hsign.respelled hk) (hopening.respelled hk₁) hfs
        (hclosing.respelled hk₂) hbs, rfl, ?_⟩
      rw [List.map_append, List.map_append, hcontent, hcontents]

/-! ## Statements -/

theorem content_targetOf {kind : TargetKind} {name : String} {r r' : Range}
    {as bs : List Assignment} {compound compound' : Option Range}
    (hcompound : unplaced compound' = unplaced compound)
    (h : bs.map (·.contentWithout .none) = as.map (·.contentWithout .none)) :
    (Parser.targetOf kind name r' (bs, compound')).contentWithout .none =
      (Parser.targetOf kind name r (as, compound)).contentWithout .none := by
  refine contentWithout_targetOf (t := Parser.targetOf kind name r (as, compound)) hcompound ?_
  rw [membersWithout_none]
  exact h

theorem member_respelled {vocabulary : Vocabulary} {entity : String} {m : Target}
    {ts ks : List Token} (h : memberWrittenAs vocabulary entity m ts) (hks : Respells ks ts) :
    ∃ n, memberWrittenAs vocabulary entity n ks ∧
      n.contentWithout .none = m.contentWithout .none := by
  obtain ⟨i, t, us, closing, as, compound, rfl, hi, has, hclosing, rfl⟩ := h
  obtain ⟨k, ks, rfl, hk, hks⟩ := hks.cons
  obtain ⟨us', ks, rfl, hus, hks⟩ := hks.append
  obtain ⟨k', rfl, hk'⟩ := hks.singleton
  obtain ⟨j, hj, hji⟩ := hi.respelled hk
  obtain ⟨bs, compound', hbs, hcompound, hcontent⟩ := assignments_respelled has us' hus
  have htext : j.text = i.text := (congrArg Identifier.text hji :)
  refine ⟨_, ⟨j, k, us', k', bs, compound', rfl, hj, hbs, hclosing.respelled hk', rfl⟩, ?_⟩
  rw [htext]
  exact content_targetOf hcompound hcontent

theorem block_respelled {vocabulary : Vocabulary} {entity : String}
    {members : Option (List Target)} {ts ks : List Token}
    (h : blockWrittenAs vocabulary entity members ts) (hks : Respells ks ts) :
    ∃ members', blockWrittenAs vocabulary entity members' ks ∧
      members'.isNone = members.isNone ∧ (members'.getD []).map (·.contentWithout .none) =
        (members.getD []).map (·.contentWithout .none) := by
  cases members with
  | none =>
      rw [blockWrittenAs] at h
      rw [h] at hks
      exact ⟨none, hks.nil, rfl, rfl⟩
  | some members =>
      obtain ⟨opening, us, closing, rfl, hopening, hclosing, hms⟩ := h
      obtain ⟨k, ks, rfl, hk, hks⟩ := hks.cons
      obtain ⟨us', ks, rfl, hus, hks⟩ := hks.append
      obtain ⟨k', rfl, hk'⟩ := hks.singleton
      obtain ⟨ns, hns, hcontent⟩ := consecutive_respelled (Target.contentWithout · .none)
        (fun m ws ks hm hks => member_respelled hm hks) hms hus
      exact ⟨some ns, ⟨k, us', k', rfl, hopening.respelled hk, hclosing.respelled hk', hns⟩, rfl,
        hcontent⟩

theorem statement_respelled {vocabulary : Vocabulary} {s : Statement} {ts ks : List Token}
    (h : s.WrittenAs vocabulary ts) (hks : Respells ks ts) :
    ∃ s' : Statement, s'.WrittenAs vocabulary ks ∧
      s'.targets.map (·.contentWithout .none) = s.targets.map (·.contentWithout .none) := by
  obtain ⟨first, us, ws, as, bs, closing, rfl, hfirst, hentity, hwith, has, hblock, hclosing⟩ := h
  obtain ⟨k, ks, rfl, hk, hks⟩ := hks.cons
  obtain ⟨us', ks, rfl, hus, hks⟩ := hks.append
  obtain ⟨ws', ks, rfl, hws, hks⟩ := hks.append
  obtain ⟨as', ks, rfl, has', hks⟩ := hks.append
  obtain ⟨bs', ks, rfl, hbs, hks⟩ := hks.append
  obtain ⟨k', rfl, hk'⟩ := hks.singleton
  obtain ⟨entity', hentity', hentities⟩ := hentity.respelled hus
  obtain ⟨assignments', compound', hassignments, hcompound, hcontent⟩ :=
    assignments_respelled has as' has'
  obtain ⟨members', hmembers, hnone, hcontents⟩ := block_respelled hblock hbs
  have htext := Path.text_of_content hentities
  rw [← htext] at hmembers
  refine ⟨⟨entity', assignments', compound', members'⟩, ⟨k, us', ws', as', bs', k', rfl,
    hfirst.respelled hk, hentity', ?_, hassignments, hmembers, hclosing.respelled hk'⟩, ?_⟩
  · rcases hwith with rfl | ⟨t, rfl, ht⟩
    · exact Or.inl hws.nil
    · obtain ⟨k'', rfl, hk''⟩ := hws.singleton
      exact Or.inr ⟨k'', rfl, ht.respelled hk''⟩
  · have hempty : assignments'.isEmpty = s.assignments.isEmpty := by
      have hlength := congrArg List.length hcontent
      rw [List.length_map, List.length_map] at hlength
      rw [Bool.eq_iff_iff, List.isEmpty_iff_length_eq_zero, List.isEmpty_iff_length_eq_zero, hlength]
    rw [Statement.targets, Statement.targets, List.map_append, List.map_append, hcontents]
    refine congrArg (· ++ _) ?_
    simp only [Statement.entityTargets, hempty, hnone, htext]
    split
    · exact congrArg (fun t => [t]) (content_targetOf hcompound hcontent)
    · rfl

/-- Tokens that respell those of a file write a file of the same content. -/
theorem items_respelled {vocabulary : Vocabulary} : ∀ {items : List Item} {ts ks : List Token},
    consecutive (Item.WrittenAs vocabulary) items ts → Respells ks ts →
    ∃ items', consecutive (Item.WrittenAs vocabulary) items' ks ∧
      (declarationsOf items').map (·.content) = (declarationsOf items).map (·.content) ∧
      (targetsOf items').map (·.contentWithout .none) =
        (targetsOf items).map (·.contentWithout .none)
  | [], ts, ks, h, hks => by
      rw [consecutive] at h
      rw [h] at hks
      exact ⟨[], hks.nil, rfl, rfl⟩
  | .inl d :: items, ts, ks, h, hks => by
      obtain ⟨us, vs, rfl, hd, hitems⟩ := h
      obtain ⟨us', vs', rfl, hus, hvs⟩ := hks.append
      obtain ⟨d', hd', hcontent⟩ := Declaration.WrittenAs.respelled hd hus
      obtain ⟨items', hitems', hdeclarations, htargets⟩ := items_respelled hitems hvs
      refine ⟨.inl d' :: items', ⟨us', vs', rfl, hd', hitems'⟩, ?_, htargets⟩
      show d'.content :: (declarationsOf items').map (·.content) =
        d.content :: (declarationsOf items).map (·.content)
      rw [hcontent, hdeclarations]
  | .inr s :: items, ts, ks, h, hks => by
      obtain ⟨us, vs, rfl, hs, hitems⟩ := h
      obtain ⟨us', vs', rfl, hus, hvs⟩ := hks.append
      obtain ⟨s', hs', hcontent⟩ := statement_respelled hs hus
      obtain ⟨items', hitems', hdeclarations, htargets⟩ := items_respelled hitems hvs
      refine ⟨.inr s' :: items', ⟨us', vs', rfl, hs', hitems'⟩, hdeclarations, ?_⟩
      show (s'.targets ++ targetsOf items').map (·.contentWithout .none) =
        (s.targets ++ targetsOf items).map (·.contentWithout .none)
      rw [List.map_append, List.map_append, hcontent, htargets]

end AnnotationEdit.Syntax

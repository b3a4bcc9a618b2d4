import AnnotationEdit.Proofs.Syntax.Pruning

/-!
# What is left of a file

The members of lists that are selected are taken out of the tokens of a file. What is left of the
tokens of a value, an annotation, a target and at last of all items of the file writes what is left
of the tree (`prune_items`): the same tree without the selected members.
-/

namespace AnnotationEdit.Syntax

open Node (ofValue ofEntry ofAssignment)

theorem forms_value {vocabulary : Vocabulary} : Forms vocabulary ofValue Value.WrittenAs where
  writtenAs _ _ h := Node.writtenAs_ofValue h
  ne_file := ofValue_ne_file
  spans v _ h := by cases v <;> exact spans_value h
  tame _ _ h := h.tame

theorem forms_entry {vocabulary : Vocabulary} : Forms vocabulary ofEntry Entry.WrittenAs where
  writtenAs _ _ h := Node.writtenAs_ofEntry h
  ne_file := ofEntry_ne_file
  spans e _ h := by cases e <;> exact spans_entry h
  tame _ _ h := h.tame

theorem forms_groupItem {vocabulary : Vocabulary} : Forms vocabulary Node.annotation
    fun (a : Annotation) ts => a.WrittenAs ts ∧ a.atSign = none where
  writtenAs _ _ h := Or.inr h.1
  ne_file _ _ := Node.noConfusion
  spans _ _ h := h.1.spans
  tame _ _ h := h.1.tame

theorem forms_assignment {vocabulary : Vocabulary} :
    Forms vocabulary ofAssignment (Assignment.Written vocabulary) where
  writtenAs _ _ h := Node.writtenAs_ofAssignment h
  ne_file := ofAssignment_ne_file
  spans a _ h := by cases a <;> exact spans_assignment h.choose_spec
  tame _ _ h := Assignment.WrittenAs.tame h.choose_spec

theorem forms_compoundItem {vocabulary : Vocabulary} :
    Forms vocabulary ofAssignment (Assignment.WrittenAs vocabulary none) where
  writtenAs _ _ h := forms_assignment.writtenAs _ _ ⟨none, h⟩
  ne_file := ofAssignment_ne_file
  spans _ _ h := forms_assignment.spans _ _ ⟨none, h⟩
  tame _ _ h := Assignment.WrittenAs.tame h

theorem writesAll_targets {vocabulary : Vocabulary} {targets : List Target} {i : Nat}
    {ts : List Token} (h : Laid (Target.Written vocabulary) targets ts) :
    WritesAll vocabulary (numberedFrom "targets" i (targets.map .target)) ts :=
  writesAll_of_laid (fun _ _ h => h) (fun _ _ => Node.noConfusion) h

/-- Targets of which only members of their lists are selected, and never all assignments; `i` is the
number of the first one. -/
def TargetsStay (gone : Selection) : Nat → List Target → Prop
  | _, [] => True
  | i, t :: ts => (gone ["targets", toString i] = false ∧
      Members (gone.below ["targets", toString i]) (.target t) ∧
      (t.assignments ≠ [] → membersWithout "assignments" Assignment.contentWithout
        (gone.below ["targets", toString i]) 0 t.assignments ≠ [])) ∧ TargetsStay gone (i + 1) ts

theorem targetsStay_append {gone : Selection} : ∀ {ts us : List Target} {i : Nat},
    TargetsStay gone i (ts ++ us) →
      TargetsStay gone i ts ∧ TargetsStay gone (i + ts.length) us
  | [], _, _, h => ⟨trivial, h⟩
  | t :: ts, us, i, ⟨ht, h⟩ => by
      obtain ⟨hts, hus⟩ := targetsStay_append h
      rw [List.length_cons, Nat.add_comm ts.length 1, ← Nat.add_assoc]
      exact ⟨⟨ht, hts⟩, hus⟩

section

variable {flagged cut : Token → Bool} {code : List Token} {N : Nat} {gone : Selection}
variable (vocabulary : Vocabulary) (hcuts : CutsMembers flagged cut code) (hordered : Token.Ordered N code)

include vocabulary hcuts hordered

/-! ## Lists between brackets -/

theorem prune_bracketed {α : Type} {written : α → List Token → Prop} (content : α → Selection → α)
    {node : α → Node} {name : String} {opening closing : Token} {es : List α} {i : Nat}
    {us : List Token} (hforms : Forms vocabulary node written) (hopens : opening.opensMember = true)
    (hopening : opening.is "," = false) (hclosing : closing.is "," = false)
    (hes : commaSeparated written es us) (hcode : Stands (opening :: (us ++ [closing])) code)
    (hflags : Flags flagged gone (numberedFrom name i (es.map node))
      (opening :: (us ++ [closing])))
    (hprune : ∀ (j : Nat) (e : α) (ws : List Token),
      ([name, toString j], node e) ∈ numberedFrom name i (es.map node) → written e ws →
      ws.Sublist us → Stands ws code → gone [name, toString j] = false →
      Flags flagged (gone.below [name, toString j]) (node e).children ws →
      Pruned flagged cut written content (gone.below [name, toString j]) e ws) :
    Stays flagged (opening :: (us ++ [closing])) ∧
      ∀ ks, Respells ks (kept cut (opening :: (us ++ [closing]))) →
        ∃ k ws k' fs, ks = k :: (ws ++ [k']) ∧ k.bare = opening.bare ∧ k'.bare = closing.bare ∧
          commaSeparated written fs ws ∧
          fs.map (content · .none) = membersWithout name content gone i es := by
  have hall : WritesAll vocabulary (numberedFrom name i (es.map node)) us :=
    hforms.writesAll (laid_of_commaSeparated hes)
  rw [← List.singleton_append] at hflags hcode
  obtain ⟨hfirst, hflags⟩ := hflags.skip (hordered.sublist hcode.sublist)
    (hall.weaken (List.sublist_append_left us _))
  obtain ⟨hflags, hlast⟩ := hflags.drop (hordered.sublist hcode.right.sublist) hall
  have hfirst := hfirst opening (List.mem_singleton_self _)
  have hlast := hlast closing (List.mem_singleton_self _)
  have hsettled := settledMembers_of_flags hforms hordered hes hcode.right.left hflags hprune
  constructor
  · refine ⟨?_, ?_, chain_settledMembers hlast hopens hsettled⟩
    · intro t ht
      rw [← Option.some.inj ht]
      exact hfirst
    · intro t ht
      rw [← List.cons_append, List.getLast?_concat] at ht
      rw [← Option.some.inj ht]
      exact hlast
  · intro ks hks
    have hopen : kept cut [opening] = [opening] := hcuts.kept_eq hcode.left
      (List.forall_mem_singleton.mpr hfirst) (List.forall_mem_singleton.mpr hopening)
    have hclose : kept cut [closing] = [closing] := hcuts.kept_eq hcode.right.right
      (List.forall_mem_singleton.mpr hlast) (List.forall_mem_singleton.mpr hclosing)
    rw [← List.singleton_append, kept_append, kept_append, hopen, hclose,
      List.singleton_append] at hks
    obtain ⟨k, ks, rfl, hk, hks⟩ := hks.cons
    obtain ⟨ws, ks, rfl, hws, hks⟩ := hks.append
    obtain ⟨k', rfl, hk'⟩ := hks.singleton
    obtain ⟨fs, hfs, hcontent⟩ := exists_members hcuts hclosing hsettled hcode.right ws hws
    exact ⟨k, ws, k', fs, rfl, hk, hk', hfs, hcontent⟩

/-! ## Values -/

theorem prune_afterColon {colon : Option Range} {value : Option Value} {ts : List Token}
    (h : valueAfterColon colon value ts) (hcode : Stands ts code)
    (hgone : value.isSome = true → gone ["value"] = false)
    (hflags : Flags flagged gone (value.toList.map fun v => (["value"], ofValue v)) ts)
    (hprune : ∀ v us, value = some v → us.length < ts.length → v.WrittenAs us → Stands us code →
      Flags flagged (gone.below ["value"]) (ofValue v).children us →
      Pruned flagged cut Value.WrittenAs Value.contentWithout (gone.below ["value"]) v us) :
    Stays flagged ts ∧ ∀ ks, Respells ks (kept cut ts) →
      ∃ colon' value', valueAfterColon colon' value' ks ∧ unplaced colon' = unplaced colon ∧
        valueWithout (Selection.below .none ["value"]) value' =
          valueWithout (gone.below ["value"]) value := by
  cases value with
  | none =>
      rw [valueAfterColon] at h
      obtain ⟨rfl, rfl⟩ := h
      refine ⟨.nil, fun ks hks => ⟨none, none, ?_, rfl, ?_⟩⟩
      · rw [valueAfterColon]
        exact ⟨rfl, hks.nil⟩
      · rw [valueWithout, valueWithout]
  | some v =>
      rw [valueAfterColon] at h
      obtain ⟨c, us, rfl, hc, rfl, hv⟩ := h
      have hwritten : (ofValue v).WrittenAs vocabulary us := Node.writtenAs_ofValue hv
      rw [← List.singleton_append] at hflags hcode
      obtain ⟨hfree, hflags⟩ := hflags.skip (hordered.sublist hcode.sublist)
        (.singleton (ofValue_ne_file v) hwritten)
      have hfree := hfree c (List.mem_singleton_self _)
      have hpruned := hprune v us rfl (Nat.lt_succ_self _) hv hcode.right (hflags.child (hgone rfl))
      refine ⟨hpruned.stays.cons hfree, fun ks hks => ?_⟩
      have hkept : kept cut [c] = [c] := hcuts.kept_eq hcode.left
        (List.forall_mem_singleton.mpr hfree)
        (List.forall_mem_singleton.mpr (not_comma_of_isMark hc (by decide)))
      rw [← List.singleton_append, kept_append, hkept, List.singleton_append] at hks
      obtain ⟨k, ks, rfl, hk, hks⟩ := hks.cons
      obtain ⟨w, hw, hcontent⟩ := hpruned.rest ks hks
      refine ⟨some k.range, some w, ?_, rfl, ?_⟩
      · rw [valueAfterColon]
        exact ⟨k, ks, rfl, hc.respelled hk, rfl, hw⟩
      · rw [valueWithout, valueWithout]
        exact congrArg some hcontent

theorem prune_parts {q : Option Identifier} {colon : Option Range} {value : Option Value}
    {us qs ms vs : List Token} (hus : ∀ t ∈ us, t.is "," = false)
    (hqualifier : qualifierWrittenAs q qs) (hms : ∀ t ∈ ms, t.is "," = false)
    (hvalue : valueAfterColon colon value vs) (hcode : Stands (us ++ (qs ++ (ms ++ vs))) code)
    (hgone : q.isSome = true → gone ["qualifier"] = false)
    (hgone' : value.isSome = true → gone ["value"] = false)
    (hflags : Flags flagged gone ((q.toList.map fun q => (["qualifier"], Node.qualifier q)) ++
      value.toList.map fun v => (["value"], ofValue v)) (us ++ (qs ++ (ms ++ vs))))
    (hprune : ∀ v ws, value = some v → ws.length < vs.length → v.WrittenAs ws → Stands ws code →
      Flags flagged (gone.below ["value"]) (ofValue v).children ws →
      Pruned flagged cut Value.WrittenAs Value.contentWithout (gone.below ["value"]) v ws) :
    Stays flagged (us ++ (qs ++ (ms ++ vs))) ∧
      ∀ ks, Respells ks (kept cut (us ++ (qs ++ (ms ++ vs)))) →
        ∃ us' qs' ms' vs' q' colon' value', ks = us' ++ (qs' ++ (ms' ++ vs')) ∧ Respells us' us ∧
          qualifierWrittenAs q' qs' ∧ Respells ms' ms ∧ valueAfterColon colon' value' vs' ∧
          q'.map Identifier.content = q.map Identifier.content ∧
          unplaced colon' = unplaced colon ∧
          valueWithout (Selection.below .none ["value"]) value' =
            valueWithout (gone.below ["value"]) value := by
  have hqs : WritesAll vocabulary (q.toList.map fun q => (["qualifier"], Node.qualifier q)) qs := by
    cases q with
    | none => exact .nil
    | some q => exact .singleton (fun _ => Node.noConfusion) hqualifier
  have hvs : WritesAll vocabulary (value.toList.map fun v => (["value"], ofValue v)) vs := by
    cases value with
    | none => exact .nil
    | some v =>
        rw [valueAfterColon] at hvalue
        obtain ⟨c, ws, rfl, _, _, hv⟩ := hvalue
        exact (WritesAll.singleton (ofValue_ne_file v) (Node.writtenAs_ofValue hv)).weaken
          (List.sublist_cons_self c ws)
  have hmvs := hvs.weaken (List.sublist_append_right ms vs)
  obtain ⟨hfree, hflags⟩ := hflags.skip (hordered.sublist hcode.sublist) (hqs.append hmvs)
  obtain ⟨hflagsq, hflags⟩ := hflags.append (hordered.sublist hcode.right.sublist) hqs hmvs
  obtain ⟨hfree', hflags⟩ := hflags.skip (hordered.sublist hcode.right.right.sublist) hvs
  have hfreeq : ∀ t ∈ qs, flagged t = false := by
    cases q with
    | none => exact hflagsq.eq_false
    | some q => exact (hflagsq.child (hgone rfl)).eq_false
  obtain ⟨hstays, hrest⟩ := prune_afterColon vocabulary hcuts hordered hvalue
    hcode.right.right.right hgone' hflags hprune
  refine ⟨(Stays.of_forall hfree).append ((Stays.of_forall hfreeq).append
    ((Stays.of_forall hfree').append hstays)), fun ks hks => ?_⟩
  rw [kept_append, kept_append, kept_append, hcuts.kept_eq hcode.left hfree hus,
    hcuts.kept_eq hcode.right.left hfreeq (not_comma_of_qualifier hqualifier),
    hcuts.kept_eq hcode.right.right.left hfree' hms] at hks
  obtain ⟨us', ks, rfl, hus', hks⟩ := hks.append
  obtain ⟨qs', ks, rfl, hqs', hks⟩ := hks.append
  obtain ⟨ms', vs', rfl, hms', hvs'⟩ := hks.append
  obtain ⟨q', hq', hqq⟩ := qualifier_respelled hqualifier hqs'
  obtain ⟨colon', value', hvalue', hcolon, hcontent⟩ := hrest vs' hvs'
  exact ⟨us', qs', ms', vs', q', colon', value', rfl, hus', hq', hms', hvalue', hqq, hcolon,
    hcontent⟩

mutual

theorem prune_value : ∀ (n : Nat) {v : Value} {gone : Selection} {ts : List Token},
    ts.length < n → v.WrittenAs ts → Stands ts code → Members gone (ofValue v) →
    Flags flagged gone (ofValue v).children ts →
    Pruned flagged cut Value.WrittenAs Value.contentWithout gone v ts
  | n + 1, .record ⟨range, entries⟩, gone, ts, hlen, h, hcode, hmembers, hflags => by
      rw [Value.WrittenAs] at h
      obtain ⟨opening, closing, us, rfl, ho, hc, _, hentries⟩ := h
      rw [List.length_cons, List.length_append, List.length_singleton] at hlen
      have hopens : opening.opensMember = true := by
        rw [Token.opensMember, ho.1, Bool.or_true, Bool.true_or]
      obtain ⟨hstays, hrest⟩ := prune_bracketed vocabulary hcuts hordered
        Entry.contentWithout forms_entry hopens
        (not_comma_of_isMark ho (by decide)) (not_comma_of_isMark hc (by decide))
        ((entriesWrittenAs_iff entries us).mp hentries) hcode hflags
        fun j e ws hmem he hws hcode _ hflags => prune_entry n
          (by have := hws.length_le; omega) he hcode (hmembers.child hmem) hflags
      refine ⟨hstays, fun ks hks => ?_⟩
      obtain ⟨k, ws, k', fs, rfl, hk, hk', hfs, hcontent⟩ := hrest ks hks
      refine ⟨.record ⟨⟨k.range.start, k'.range.stop⟩, fs⟩, ?_, ?_⟩
      · rw [Value.WrittenAs]
        exact ⟨k, k', ws, rfl, ho.respelled hk, hc.respelled hk', rfl,
          (entriesWrittenAs_iff fs ws).mpr hfs⟩
      · rw [Value.contentWithout, Value.contentWithout, entriesWithout_eq, entriesWithout_eq,
          membersWithout_none, hcontent]
  | n + 1, .collection ⟨range, items⟩, gone, ts, hlen, h, hcode, hmembers, hflags => by
      rw [Value.WrittenAs] at h
      obtain ⟨opening, closing, us, rfl, ho, hc, _, hitems⟩ := h
      rw [List.length_cons, List.length_append, List.length_singleton] at hlen
      have hopens : opening.opensMember = true := by
        rw [Token.opensMember, ho.1, Bool.true_or, Bool.true_or, Bool.true_or]
      obtain ⟨hstays, hrest⟩ := prune_bracketed vocabulary hcuts hordered
        Value.contentWithout forms_value hopens
        (not_comma_of_isMark ho (by decide)) (not_comma_of_isMark hc (by decide))
        ((valuesWrittenAs_iff items us).mp hitems) hcode hflags
        fun j v ws hmem hv hws hcode _ hflags => prune_value n
          (by have := hws.length_le; omega) hv hcode (hmembers.child hmem) hflags
      refine ⟨hstays, fun ks hks => ?_⟩
      obtain ⟨k, ws, k', fs, rfl, hk, hk', hfs, hcontent⟩ := hrest ks hks
      refine ⟨.collection ⟨⟨k.range.start, k'.range.stop⟩, fs⟩, ?_, ?_⟩
      · rw [Value.WrittenAs]
        exact ⟨k, k', ws, rfl, ho.respelled hk, hc.respelled hk', rfl,
          (valuesWrittenAs_iff fs ws).mpr hfs⟩
      · rw [Value.contentWithout, Value.contentWithout, valuesWithout_eq, valuesWithout_eq,
          membersWithout_none, hcontent]
  | n + 1, .primitive p, gone, ts, _, h, hcode, _, hflags => by
      rw [Value.WrittenAs] at h
      refine ⟨.of_forall hflags.eq_false, fun ks hks => ?_⟩
      rw [hcuts.kept_eq hcode hflags.eq_false (not_comma_of_primitive h)] at hks
      obtain ⟨q, hq, hcontent⟩ := h.respelled hks
      refine ⟨.primitive q, ?_, ?_⟩
      · rw [Value.WrittenAs]
        exact hq
      · rw [Value.contentWithout, Value.contentWithout, hcontent]

theorem prune_entry : ∀ (n : Nat) {e : Entry} {gone : Selection} {ts : List Token},
    ts.length < n → e.WrittenAs ts → Stands ts code → Members gone (ofEntry e) →
    Flags flagged gone (ofEntry e).children ts →
    Pruned flagged cut Entry.WrittenAs Entry.contentWithout gone e ts
  | n + 1, .property ⟨range, name, colon, value⟩, gone, ts, hlen, h, hcode, hmembers, hflags => by
      rw [Entry.WrittenAs] at h
      obtain ⟨us, vs, rfl, hname, hvalue, _⟩ := h
      rw [List.length_append] at hlen
      have hnone : qualifierWrittenAs none ([] : List Token) := rfl
      have hnil : ∀ t ∈ ([] : List Token), t.is "," = false := fun _ h => absurd h List.not_mem_nil
      have hchild : ∀ v, value = some v → (["value"], ofValue v) ∈
          (ofEntry (.property ⟨range, name, colon, value⟩)).children := by
        rintro v rfl
        exact List.mem_singleton_self _
      obtain ⟨hstays, hrest⟩ := prune_parts vocabulary hcuts hordered (not_comma_of_path hname)
        hnone hnil hvalue hcode nofun
        (fun hv => by
          obtain ⟨v, hv⟩ := Option.isSome_iff_exists.mp hv
          exact hmembers.eq_false (hchild v hv) rfl) hflags
        fun v ws hv hws hwritten hcode hflags =>
          prune_value n (by omega) hwritten hcode (hmembers.child (hchild v hv)) hflags
      refine ⟨hstays, fun ks hks => ?_⟩
      obtain ⟨us', qs', ms', vs', q', colon', value', rfl, hus', hq', hms', hvalue', hqq, hcolon,
        hcontent⟩ := hrest ks hks
      obtain ⟨name', hname', hnames⟩ := hname.respelled hus'
      obtain rfl : q' = none := Option.map_eq_none_iff.mp hqq
      obtain rfl : qs' = [] := hq'
      rw [hms'.nil]
      refine ⟨.property ⟨⟨name'.range.start, Parser.endOf value' name'.range.stop⟩, name', colon',
        value'⟩, ?_, ?_⟩
      · rw [Entry.WrittenAs]
        exact ⟨us', vs', rfl, hname', hvalue', rfl⟩
      · rw [Entry.contentWithout, Entry.contentWithout, hnames, hcolon, hcontent]
  | n + 1, .embedded ⟨range, atSign, term, qualifier, colon, value, embedded⟩, gone, ts, hlen, h,
      hcode, hmembers, hflags => by
      rw [Entry.WrittenAs] at h
      obtain ⟨mark, opening, sign, us, qs, closing, vs, rfl, hmark, hopening, hsign, hterm,
        hqualifier, hclosing, hvalue, _, rfl, rfl⟩ := h
      simp only [List.length_append, List.length_cons] at hlen
      have hfront : ∀ t ∈ mark :: opening :: sign :: us, t.is "," = false := by
        refine List.forall_mem_cons.mpr ⟨not_comma_of_isMark hmark (by decide), ?_⟩
        refine List.forall_mem_cons.mpr ⟨not_comma_of_isMark hopening (by decide), ?_⟩
        exact List.forall_mem_cons.mpr
          ⟨not_comma_of_isMark hsign (by decide), not_comma_of_path hterm⟩
      have hclose : ∀ t ∈ [closing], t.is "," = false :=
        List.forall_mem_singleton.mpr (not_comma_of_isMark hclosing (by decide))
      have hchild : ∀ v, value = some v → (["value"], ofValue v) ∈
          (Node.annotation ⟨range, none, term, qualifier, colon, value, true⟩).children := by
        rintro v rfl
        exact List.mem_append_right _ (List.mem_singleton_self _)
      obtain ⟨hstays, hrest⟩ := prune_parts vocabulary hcuts hordered hfront hqualifier hclose
        hvalue hcode
        (fun hq => by
          obtain ⟨q, rfl⟩ := Option.isSome_iff_exists.mp hq
          exact hmembers.eq_false (List.mem_append_left _ (List.mem_singleton_self _)) rfl)
        (fun hv => by
          obtain ⟨v, hv⟩ := Option.isSome_iff_exists.mp hv
          exact hmembers.eq_false (hchild v hv) rfl) hflags
        fun v ws hv hws hwritten hcode hflags =>
          prune_value n (by omega) hwritten hcode (hmembers.child (hchild v hv)) hflags
      refine ⟨hstays, fun ks hks => ?_⟩
      obtain ⟨us', qs', ms', vs', q', colon', value', rfl, hus', hq', hms', hvalue', hqq, hcolon,
        hcontent⟩ := hrest ks hks
      obtain ⟨k₁, ks, rfl, hk₁, hus'⟩ := hus'.cons
      obtain ⟨k₂, ks, rfl, hk₂, hus'⟩ := hus'.cons
      obtain ⟨k₃, ks, rfl, hk₃, hus'⟩ := hus'.cons
      obtain ⟨k₄, rfl, hk₄⟩ := hms'.singleton
      obtain ⟨term', hterm', hterms⟩ := hterm.respelled hus'
      refine ⟨.embedded ⟨⟨k₁.range.start, Parser.endOf value' k₄.range.stop⟩, none, term', q',
        colon', value', true⟩, ?_, ?_⟩
      · rw [Entry.WrittenAs]
        exact ⟨k₁, k₂, k₃, ks, qs', k₄, vs', rfl, hmark.respelled hk₁, hopening.respelled hk₂,
          hsign.respelled hk₃, hterm', hq', hclosing.respelled hk₄, hvalue', rfl, rfl, rfl⟩
      · rw [Entry.contentWithout, Entry.contentWithout, Annotation.contentWithout,
          Annotation.contentWithout, hterms, hqq, hcolon, hcontent]

end

/-! ## Annotations -/

theorem prune_annotation {a : Annotation} {ts : List Token} (h : a.WrittenAs ts)
    (hcode : Stands ts code) (hmembers : Members gone (Node.annotation a))
    (hflags : Flags flagged gone (Node.annotation a).children ts) :
    Stays flagged ts ∧ ∀ ks s, Respells ks (kept cut ts) → unplaced s = unplaced a.atSign →
      ∃ b : Annotation, b.WrittenAs ks ∧ b.atSign = s ∧
        b.contentWithout .none = a.contentWithout gone := by
  obtain ⟨range, atSign, term, qualifier, colon, value, embedded⟩ := a
  obtain ⟨us, qs, vs, rfl, hterm, hqualifier, hvalue, _, rfl⟩ := h
  have hnil : ∀ t ∈ ([] : List Token), t.is "," = false := fun _ h => absurd h List.not_mem_nil
  have hchild : ∀ v, value = some v → (["value"], ofValue v) ∈
      (Node.annotation ⟨range, atSign, term, qualifier, colon, value, false⟩).children := by
    rintro v rfl
    exact List.mem_append_right _ (List.mem_singleton_self _)
  obtain ⟨hstays, hrest⟩ := prune_parts vocabulary hcuts hordered (not_comma_of_path hterm)
    hqualifier hnil hvalue hcode
    (fun hq => by
      obtain ⟨q, rfl⟩ := Option.isSome_iff_exists.mp hq
      exact hmembers.eq_false (List.mem_append_left _ (List.mem_singleton_self _)) rfl)
    (fun hv => by
      obtain ⟨v, hv⟩ := Option.isSome_iff_exists.mp hv
      exact hmembers.eq_false (hchild v hv) rfl) hflags
    fun v ws hv hws hwritten hcode hflags => prune_value vocabulary hcuts hordered _
      (Nat.lt_succ_self _) hwritten hcode (hmembers.child (hchild v hv)) hflags
  refine ⟨hstays, fun ks s hks hs => ?_⟩
  obtain ⟨us', qs', ms', vs', q', colon', value', rfl, hus', hq', hms', hvalue', hqq, hcolon,
    hcontent⟩ := hrest ks hks
  obtain ⟨term', hterm', hterms⟩ := hterm.respelled hus'
  rw [hms'.nil]
  let head : Annotation := ⟨default, s, term', q', colon', value', false⟩
  refine ⟨⟨⟨term'.range.start, Parser.endOf value' head.headEnd⟩, s, term', q', colon', value',
    false⟩, ⟨us', qs', vs', rfl, hterm', hq', hvalue', rfl, rfl⟩, rfl, ?_⟩
  rw [ Annotation.contentWithout, Annotation.contentWithout, hterms, hqq, hcolon, hcontent, hs]

omit vocabulary hcuts hordered in
/-- Whether an annotation is taken for a group is a matter of its content. -/
theorem isSingle_of_content {vocabulary : Vocabulary} {a b : Annotation}
    (h : b.contentWithout .none = a.contentWithout gone) (ha : a.IsSingle vocabulary) :
    b.IsSingle vocabulary := by
  obtain ⟨range, atSign, term, qualifier, colon, value, embedded⟩ := a
  obtain ⟨range', atSign', term', qualifier', colon', value', embedded'⟩ := b
  rw [ Annotation.contentWithout, Annotation.contentWithout] at h
  obtain ⟨_, _, hterm, hqualifier, _, hvalue, _⟩ := Annotation.mk.inj h
  rintro hlength halias hnone ⟨range', entries'⟩ hr
  have hlength' : term.segments.length = 1 := by
    rw [← Path.length_of_content hterm]
    exact hlength
  have halias' : vocabulary.isAlias term.text = true := by
    rw [← Path.text_of_content hterm]
    exact halias
  obtain rfl : qualifier' = none := hnone
  obtain rfl : value' = some (.record ⟨range', entries'⟩) := hr
  have hnone' : qualifier = none := Option.map_eq_none_iff.mp hqualifier.symm
  cases value with
  | none =>
      rw [valueWithout, valueWithout] at hvalue
      cases hvalue
  | some v =>
      rw [valueWithout, valueWithout] at hvalue
      cases v with
      | record r' => exact ha hlength' halias' hnone' r' rfl
      | collection c =>
          obtain ⟨_, _⟩ := c
          rw [Value.contentWithout, Value.contentWithout] at hvalue
          cases hvalue
      | primitive p =>
          rw [Value.contentWithout, Value.contentWithout] at hvalue
          cases hvalue

theorem prune_assignment {a : Assignment} {atSign : Option Range} {ts : List Token}
    (h : a.WrittenAs vocabulary atSign ts) (hcode : Stands ts code)
    (hmembers : Members gone (ofAssignment a))
    (hflags : Flags flagged gone (ofAssignment a).children ts) :
    Stays flagged ts ∧ ∀ ks s, Respells ks (kept cut ts) → unplaced s = unplaced atSign →
      ∃ b : Assignment, b.WrittenAs vocabulary s ks ∧
        b.contentWithout .none = a.contentWithout gone := by
  cases a with
  | single a =>
      obtain ⟨hwritten, rfl, hsingle⟩ := h
      obtain ⟨hstays, hrest⟩ := prune_annotation vocabulary hcuts hordered hwritten hcode hmembers
        hflags
      refine ⟨hstays, fun ks s hks hs => ?_⟩
      obtain ⟨b, hb, hbs, hcontent⟩ := hrest ks s hks hs
      exact ⟨.single b, ⟨hb, hbs, isSingle_of_content hcontent hsingle⟩,
        congrArg Assignment.single hcontent⟩
  | group g =>
      obtain ⟨range, sign, name, colonRange, itemsRange, items⟩ := g
      obtain ⟨term, us, colon, opening, vs, closing, rfl, hterm, hlength, halias, hcolon, hopening,
        hclosing, hitems, hg⟩ := h
      obtain ⟨_, rfl, rfl, _, hitemsRange⟩ := Group.mk.inj hg
      have hchild : (["items"], Node.groupItems ⟨itemsRange, items⟩) ∈
          (Node.group ⟨range, sign, ⟨term.text, term.range⟩, colonRange,
            ⟨itemsRange, items⟩⟩).children := List.mem_singleton_self _
      have hwritten : (Node.groupItems ⟨itemsRange, items⟩).WrittenAs vocabulary
          (opening :: (vs ++ [closing])) :=
        ⟨opening, vs, closing, rfl, (GroupItems.mk.inj hitemsRange).1, hitems⟩
      have hhead : ∀ t ∈ us ++ [colon], t.is "," = false :=
        List.forall_mem_append.mpr ⟨not_comma_of_path hterm,
          List.forall_mem_singleton.mpr (not_comma_of_isMark hcolon (by decide))⟩
      rw [List.append_cons] at hflags hcode
      obtain ⟨hfree, hflags⟩ := hflags.skip (hordered.sublist hcode.sublist)
        (.singleton (fun _ => Node.noConfusion) hwritten)
      have hopens : opening.opensMember = true := by
        rw [Token.opensMember, hopening.1, Bool.or_true, Bool.true_or]
      have hflags := hflags.child (hmembers.eq_false hchild rfl)
      obtain ⟨hstays, hrest⟩ := prune_bracketed vocabulary hcuts hordered
        Annotation.contentWithout forms_groupItem hopens
        (not_comma_of_isMark hopening (by decide)) (not_comma_of_isMark hclosing (by decide))
        hitems hcode.right hflags
        fun j a ws hmem ha _ hcode _ hflags => by
          obtain ⟨hstays, hrest⟩ := prune_annotation vocabulary hcuts hordered ha.1 hcode
            ((hmembers.child hchild).child hmem) hflags
          refine ⟨hstays, fun ks hks => ?_⟩
          obtain ⟨b, hb, hbs, hcontent⟩ := hrest ks none hks (by rw [ha.2])
          exact ⟨b, ⟨hb, hbs⟩, hcontent⟩
      rw [List.append_cons]
      refine ⟨(Stays.of_forall hfree).append hstays, fun ks s hks hs => ?_⟩
      rw [kept_append, hcuts.kept_eq hcode.left hfree hhead] at hks
      obtain ⟨front, list, rfl, hfront, hlist⟩ := hks.append
      obtain ⟨us', colon', rfl, hus', hcolon'⟩ := hfront.append
      obtain ⟨k, rfl, hk⟩ := hcolon'.singleton
      obtain ⟨k₁, ws, k₂, fs, rfl, hk₁, hk₂, hfs, hcontent⟩ := hrest list hlist
      obtain ⟨term', hterm', hterms⟩ := hterm.respelled hus'
      refine ⟨.group ⟨⟨term'.range.start, k₂.range.stop⟩, s, ⟨term'.text, term'.range⟩, k.range,
        ⟨⟨k₁.range.start, k₂.range.stop⟩, fs⟩⟩, ⟨term', us', k, k₁, ws, k₂, ?_, hterm', ?_, ?_,
        hcolon.respelled hk, hopening.respelled hk₁, hclosing.respelled hk₂, hfs, rfl⟩, ?_⟩
      · rw [← List.append_cons]
      · rw [Path.length_of_content hterms]
        exact hlength
      · rw [Path.text_of_content hterms]
        exact halias
      · have hnames := Path.text_of_content hterms
        have hnone : membersWithout "items" Annotation.contentWithout
            (Selection.below .none ["items"]) 0 fs = fs.map (·.contentWithout .none) :=
          membersWithout_none "items" _ 0 fs
        simp only [Assignment.contentWithout, Group.contentWithout, GroupItems.contentWithout,
          Identifier.content, hs, hnames, hnone, hcontent]

/-! ## Targets -/

theorem prune_bare {a : Assignment} {sign : Token} {path : List String} {us : List Token}
    (hsign : sign.IsMark "@") (ha : a.WrittenAs vocabulary (some sign.range) us)
    (hcode : Stands (sign :: us) code) (hmembers : Members (gone.below path) (ofAssignment a))
    (hgone : gone path = false) (hflags : Flags flagged gone [(path, ofAssignment a)] (sign :: us)) :
    Stays flagged (sign :: us) ∧ ∀ ks, Respells ks (kept cut (sign :: us)) →
      ∃ k ws b, ks = k :: ws ∧ k.bare = sign.bare ∧
        Assignment.WrittenAs vocabulary (some k.range) b ws ∧
        b.contentWithout .none = a.contentWithout (gone.below path) := by
  have hus : WritesAll vocabulary [(path, ofAssignment a)] us :=
    .singleton (ofAssignment_ne_file a) (Node.writtenAs_ofAssignment ⟨_, ha⟩)
  rw [← List.singleton_append] at hflags hcode
  obtain ⟨hfree, hflags⟩ := hflags.skip (hordered.sublist hcode.sublist) hus
  obtain ⟨hstays, hrest⟩ := prune_assignment vocabulary hcuts hordered ha hcode.right hmembers
    (hflags.child hgone)
  refine ⟨hstays.cons (hfree sign (List.mem_singleton_self _)), fun ks hks => ?_⟩
  have hkept : kept cut [sign] = [sign] := hcuts.kept_eq hcode.left hfree
    (List.forall_mem_singleton.mpr (not_comma_of_isMark hsign (by decide)))
  rw [← List.singleton_append, kept_append, hkept, List.singleton_append] at hks
  obtain ⟨k, ws, rfl, hk, hws⟩ := hks.cons
  obtain ⟨b, hb, hcontent⟩ := hrest ws (some k.range) hws rfl
  exact ⟨k, ws, b, rfl, hk, hb, hcontent⟩

theorem prune_compound {sign opening closing : Token} {items : List Assignment} {us : List Token}
    {i : Nat} (hsign : sign.IsMark "@") (hopening : opening.IsMark "(")
    (hitems : commaSeparated (fun a => Assignment.WrittenAs vocabulary none a) items us)
    (hclosing : closing.IsMark ")") (hcode : Stands (sign :: opening :: (us ++ [closing])) code)
    (hmembers : ∀ (j : Nat) (a : Assignment), (["assignments", toString j], ofAssignment a) ∈
      numberedFrom "assignments" i (items.map ofAssignment) →
      Members (gone.below ["assignments", toString j]) (ofAssignment a))
    (hflags : Flags flagged gone (numberedFrom "assignments" i (items.map ofAssignment))
      (sign :: opening :: (us ++ [closing]))) :
    Stays flagged (sign :: opening :: (us ++ [closing])) ∧
      ∀ ks, Respells ks (kept cut (sign :: opening :: (us ++ [closing]))) →
        ∃ k k₁ ws k₂ fs, ks = k :: k₁ :: (ws ++ [k₂]) ∧ k.bare = sign.bare ∧
          k₁.bare = opening.bare ∧ k₂.bare = closing.bare ∧
          commaSeparated (fun a => Assignment.WrittenAs vocabulary none a) fs ws ∧
          fs.map (·.contentWithout .none) =
            membersWithout "assignments" Assignment.contentWithout gone i items := by
  have hopens : opening.opensMember = true := by
    rw [Token.opensMember, hopening.1, Bool.or_true, Bool.true_or, Bool.true_or]
  have hall : WritesAll vocabulary (numberedFrom "assignments" i (items.map ofAssignment))
      (opening :: (us ++ [closing])) :=
    (forms_compoundItem.writesAll (laid_of_commaSeparated hitems)).weaken
      ((List.sublist_append_left us _).cons opening)
  rw [← List.singleton_append] at hflags hcode
  obtain ⟨hfree, hflags⟩ := hflags.skip (hordered.sublist hcode.sublist) hall
  obtain ⟨hstays, hrest⟩ := prune_bracketed vocabulary hcuts hordered
    Assignment.contentWithout forms_compoundItem hopens
    (not_comma_of_isMark hopening (by decide)) (not_comma_of_isMark hclosing (by decide))
    hitems hcode.right hflags
    fun j a ws hmem ha _ hcode _ hflags => by
      obtain ⟨hstays, hrest⟩ := prune_assignment vocabulary hcuts hordered ha hcode
        (hmembers j a hmem) hflags
      exact ⟨hstays, fun ks hks => hrest ks none hks rfl⟩
  refine ⟨hstays.cons (hfree sign (List.mem_singleton_self _)), fun ks hks => ?_⟩
  have hkept : kept cut [sign] = [sign] := hcuts.kept_eq hcode.left hfree
    (List.forall_mem_singleton.mpr (not_comma_of_isMark hsign (by decide)))
  rw [← List.singleton_append, kept_append, hkept, List.singleton_append] at hks
  obtain ⟨k, list, rfl, hk, hlist⟩ := hks.cons
  obtain ⟨k₁, ws, k₂, fs, rfl, hk₁, hk₂, hfs, hcontent⟩ := hrest list hlist
  exact ⟨k, k₁, ws, k₂, fs, rfl, hk, hk₁, hk₂, hfs, hcontent⟩

theorem prune_assignments {as : List Assignment} {compound : Option Range} {ts : List Token}
    (h : AssignmentsWrittenAs vocabulary as compound ts) : ∀ i : Nat, Stands ts code →
      (∀ (j : Nat) (a : Assignment), (["assignments", toString j], ofAssignment a) ∈
          numberedFrom "assignments" i (as.map ofAssignment) →
        Members (gone.below ["assignments", toString j]) (ofAssignment a) ∧
          (a.atSign.isSome = true → gone ["assignments", toString j] = false)) →
      Flags flagged gone (numberedFrom "assignments" i (as.map ofAssignment)) ts →
      Stays flagged ts ∧ ∀ ks, Respells ks (kept cut ts) →
        ∃ bs compound', AssignmentsWrittenAs vocabulary bs compound' ks ∧
          unplaced compound' = unplaced compound ∧ bs.map (·.contentWithout .none) =
            membersWithout "assignments" Assignment.contentWithout gone i as := by
  induction h with
  | nil =>
      intro i _ _ _
      refine ⟨.nil, fun ks hks => ⟨[], none, ?_, rfl, rfl⟩⟩
      rw [hks.nil]
      exact .nil
  | @bare sign a as compound us vs hsign ha has ih =>
      intro i hcode hmembers hflags
      rw [List.map_cons, numberedFrom_cons] at hmembers hflags
      obtain ⟨hmember, hstaysSign⟩ := hmembers i a List.mem_cons_self
      have hgone := hstaysSign (by rw [ha.atSign_eq]; rfl)
      have hus : WritesAll vocabulary [(["assignments", toString i], ofAssignment a)] (sign :: us) :=
        (WritesAll.singleton (ofAssignment_ne_file a)
          (Node.writtenAs_ofAssignment ⟨_, ha⟩)).weaken (List.sublist_cons_self sign us)
      have hvs : WritesAll vocabulary
          (numberedFrom "assignments" (i + 1) (as.map ofAssignment)) vs :=
        forms_assignment.writesAll (laid_assignments has)
      rw [← List.cons_append] at hflags hcode
      obtain ⟨hfirst, hflags⟩ := Flags.append (hordered.sublist hcode.sublist) hus hvs hflags
      obtain ⟨hstays, hrest⟩ := prune_bare vocabulary hcuts hordered hsign ha hcode.left hmember
        hgone hfirst
      obtain ⟨hstays', hrest'⟩ := ih (i + 1) hcode.right
        (fun j b hb => hmembers j b (List.mem_cons_of_mem _ hb)) hflags
      rw [← List.cons_append]
      refine ⟨hstays.append hstays', fun ks hks => ?_⟩
      rw [kept_append] at hks
      obtain ⟨us', vs', rfl, hus', hvs'⟩ := hks.append
      obtain ⟨k, ws, b, rfl, hk, hb, hcontent⟩ := hrest us' hus'
      obtain ⟨bs, compound', hbs, hcompound, hcontents⟩ := hrest' vs' hvs'
      refine ⟨b :: bs, compound', .bare (hsign.respelled hk) hb hbs, hcompound, ?_⟩
      rw [List.map_cons, hcontent, hcontents, membersWithout, if_neg (Bool.eq_false_iff.mp hgone)]
  | @compound sign opening closing items as more us vs hsign hopening hitems hclosing has ih =>
      intro i hcode hmembers hflags
      rw [List.map_append, numberedFrom_append, List.length_map] at hmembers hflags
      have hsplit : sign :: opening :: (us ++ closing :: vs) =
          (sign :: opening :: (us ++ [closing])) ++ vs := by
        simp only [List.cons_append, List.append_assoc, List.nil_append]
      have hus : WritesAll vocabulary (numberedFrom "assignments" i (items.map ofAssignment))
          (sign :: opening :: (us ++ [closing])) :=
        (forms_compoundItem.writesAll (laid_of_commaSeparated hitems)).weaken
          (((List.sublist_append_left us _).cons opening).cons sign)
      have hvs : WritesAll vocabulary
          (numberedFrom "assignments" (i + items.length) (as.map ofAssignment)) vs :=
        forms_assignment.writesAll (laid_assignments has)
      rw [hsplit] at hflags hcode ⊢
      obtain ⟨hfirst, hflags⟩ := Flags.append (hordered.sublist hcode.sublist) hus hvs hflags
      obtain ⟨hstays, hrest⟩ := prune_compound vocabulary hcuts hordered hsign hopening hitems
        hclosing hcode.left (fun j a hmem => (hmembers j a (List.mem_append_left _ hmem)).1) hfirst
      obtain ⟨hstays', hrest'⟩ := ih (i + items.length) hcode.right
        (fun j b hb => hmembers j b (List.mem_append_right _ hb)) hflags
      refine ⟨hstays.append hstays', fun ks hks => ?_⟩
      rw [kept_append] at hks
      obtain ⟨us', vs', rfl, hus', hvs'⟩ := hks.append
      obtain ⟨k, k₁, ws, k₂, fs, rfl, hk, hk₁, hk₂, hfs, hcontent⟩ := hrest us' hus'
      obtain ⟨bs, compound', hbs, _, hcontents⟩ := hrest' vs' hvs'
      have hwritten := AssignmentsWrittenAs.compound (hsign.respelled hk) (hopening.respelled hk₁)
        hfs (hclosing.respelled hk₂) hbs
      rw [List.cons_append, List.cons_append, List.append_assoc]
      refine ⟨fs ++ bs, _, hwritten, rfl, ?_⟩
      rw [List.map_append, hcontent, hcontents, membersWithout_append]

/-- What is left of the assignments of a target of which only members of its lists are selected. -/
theorem prune_target {t : Target} {ts : List Token}
    (has : AssignmentsWrittenAs vocabulary t.assignments t.compound ts) (hcode : Stands ts code)
    (hmembers : Members gone (.target t)) (hflags : Flags flagged gone (Node.target t).children ts) :
    Stays flagged ts ∧ ∀ ks, Respells ks (kept cut ts) →
      ∃ bs compound', AssignmentsWrittenAs vocabulary bs compound' ks ∧
        unplaced compound' = unplaced t.compound ∧ bs.map (·.contentWithout .none) =
          membersWithout "assignments" Assignment.contentWithout gone 0 t.assignments := by
  refine prune_assignments vocabulary hcuts hordered has 0 hcode ?_ hflags
  intro j a ha
  refine ⟨hmembers.child ha, fun hsign => hmembers.eq_false ha ?_⟩
  rw [Node.partsByCommas, Node.isBare_ofAssignment, hsign]
  rfl

omit vocabulary hcuts hordered in
theorem contentWithout_targetOf {t : Target} {r : Range} {bs : List Assignment}
    {compound : Option Range} (hcompound : unplaced compound = unplaced t.compound)
    (hcontent : bs.map (·.contentWithout .none) =
      membersWithout "assignments" Assignment.contentWithout gone 0 t.assignments) :
    (Parser.targetOf t.kind t.name r (bs, compound)).contentWithout .none =
      t.contentWithout gone := by
  rw [Target.contentWithout, Target.contentWithout]
  simp only [Parser.targetOf, membersWithout_none, hcompound, hcontent]

/-! ## Statements -/

theorem prune_member {entity : String} {m : Target} {ts : List Token}
    (h : memberWrittenAs vocabulary entity m ts) (hcode : Stands ts code)
    (hmembers : Members gone (.target m)) (hflags : Flags flagged gone (Node.target m).children ts) :
    Pruned flagged cut (memberWrittenAs vocabulary entity) Target.contentWithout gone m ts := by
  obtain ⟨i, t, us, closing, as, compound, rfl, hi, has, hclosing, rfl⟩ := h
  have hall : WritesAll vocabulary (numberedFrom "assignments" 0 (as.map ofAssignment)) us :=
    forms_assignment.writesAll (laid_assignments has)
  rw [← List.singleton_append] at hflags hcode
  obtain ⟨hfirst, hflags⟩ := hflags.skip (hordered.sublist hcode.sublist)
    (hall.weaken (List.sublist_append_left us _))
  obtain ⟨hflags, hlast⟩ := hflags.drop (hordered.sublist hcode.right.sublist) hall
  obtain ⟨hstays, hrest⟩ := prune_target vocabulary hcuts hordered has hcode.right.left hmembers
    hflags
  refine ⟨(Stays.of_forall hfirst).append (hstays.append (.of_forall hlast)), fun ks hks => ?_⟩
  rw [← List.singleton_append, kept_append, kept_append, hcuts.kept_eq hcode.left hfirst
    (List.forall_mem_singleton.mpr (not_comma_of_isName hi.1)),
    hcuts.kept_eq hcode.right.right hlast
      (List.forall_mem_singleton.mpr (not_comma_of_isMark hclosing (by decide))),
    List.singleton_append] at hks
  obtain ⟨k, ks, rfl, hk, hks⟩ := hks.cons
  obtain ⟨us', ks, rfl, hus', hks⟩ := hks.append
  obtain ⟨k', rfl, hk'⟩ := hks.singleton
  obtain ⟨j, hj, hji⟩ := hi.respelled hk
  obtain ⟨bs, compound', hbs, hcompound, hcontent⟩ := hrest us' hus'
  have htext : j.text = i.text := (congrArg Identifier.text hji :)
  refine ⟨Parser.targetOf .element (entity ++ "/" ++ i.text) j.range (bs, compound'),
    ⟨j, k, us', k', bs, compound', rfl, hj, hbs, hclosing.respelled hk', ?_⟩,
    contentWithout_targetOf hcompound hcontent⟩
  rw [htext]

theorem prune_members {entity : String} : ∀ {ms : List Target} {i : Nat} {ts : List Token},
    consecutive (memberWrittenAs vocabulary entity) ms ts → Stands ts code →
    TargetsStay gone i ms → Flags flagged gone (numberedFrom "targets" i (ms.map .target)) ts →
    Stays flagged ts ∧ ∀ ks, Respells ks (kept cut ts) →
      ∃ ns, consecutive (memberWrittenAs vocabulary entity) ns ks ∧
        ns.map (·.contentWithout .none) =
          membersWithout "targets" Target.contentWithout gone i ms
  | [], i, ts, h, _, _, _ => by
      rw [consecutive] at h
      rw [h]
      exact ⟨.nil, fun ks hks => ⟨[], hks.nil, rfl⟩⟩
  | m :: ms, i, ts, h, hcode, hstay, hflags => by
      obtain ⟨us, vs, rfl, hm, hms⟩ := h
      obtain ⟨hgone, hmembers, _⟩ := hstay.1
      have hus : WritesAll vocabulary [(["targets", toString i], Node.target m)] us := by
        have hlaid : consecutive (memberWrittenAs vocabulary entity) [m] us :=
          ⟨us, [], (List.append_nil us).symm, hm, rfl⟩
        exact writesAll_targets (laid_members hlaid)
      have hvs : WritesAll vocabulary (numberedFrom "targets" (i + 1) (ms.map .target)) vs :=
        writesAll_targets (laid_members hms)
      obtain ⟨hfirst, hflags⟩ := Flags.append (hordered.sublist hcode.sublist) hus hvs hflags
      have hpruned := prune_member vocabulary hcuts hordered hm hcode.left hmembers
        (hfirst.child hgone)
      obtain ⟨hstays, hrest⟩ := prune_members hms hcode.right hstay.2 hflags
      refine ⟨hpruned.stays.append hstays, fun ks hks => ?_⟩
      rw [kept_append] at hks
      obtain ⟨us', vs', rfl, hus', hvs'⟩ := hks.append
      obtain ⟨n, hn, hcontent⟩ := hpruned.rest us' hus'
      obtain ⟨ns, hns, hcontents⟩ := hrest vs' hvs'
      refine ⟨n :: ns, ⟨us', vs', rfl, hn, hns⟩, ?_⟩
      rw [List.map_cons, hcontent, hcontents, membersWithout, if_neg (Bool.eq_false_iff.mp hgone)]

theorem prune_block {entity : String} {members : Option (List Target)} {i : Nat} {ts : List Token}
    (h : blockWrittenAs vocabulary entity members ts) (hcode : Stands ts code)
    (hstay : TargetsStay gone i (members.getD []))
    (hflags : Flags flagged gone (numberedFrom "targets" i ((members.getD []).map .target)) ts) :
    Stays flagged ts ∧ ∀ ks, Respells ks (kept cut ts) →
      ∃ members', blockWrittenAs vocabulary entity members' ks ∧
        members'.isNone = members.isNone ∧ (members'.getD []).map (·.contentWithout .none) =
          membersWithout "targets" Target.contentWithout gone i (members.getD []) := by
  cases members with
  | none =>
      rw [blockWrittenAs] at h
      rw [h]
      exact ⟨.nil, fun ks hks => ⟨none, hks.nil, rfl, rfl⟩⟩
  | some members =>
      obtain ⟨opening, us, closing, rfl, hopening, hclosing, hms⟩ := h
      rw [Option.getD_some] at hstay hflags
      have hall : WritesAll vocabulary (numberedFrom "targets" i (members.map .target)) us :=
        writesAll_targets (laid_members hms)
      rw [← List.singleton_append] at hflags hcode
      obtain ⟨hfirst, hflags⟩ := hflags.skip (hordered.sublist hcode.sublist)
        (hall.weaken (List.sublist_append_left us _))
      obtain ⟨hflags, hlast⟩ := hflags.drop (hordered.sublist hcode.right.sublist) hall
      obtain ⟨hstays, hrest⟩ := prune_members vocabulary hcuts hordered hms hcode.right.left hstay
        hflags
      refine ⟨(Stays.of_forall hfirst).append (hstays.append (.of_forall hlast)), fun ks hks => ?_⟩
      rw [← List.singleton_append, kept_append, kept_append, hcuts.kept_eq hcode.left hfirst
        (List.forall_mem_singleton.mpr (not_comma_of_isMark hopening (by decide))),
        hcuts.kept_eq hcode.right.right hlast
          (List.forall_mem_singleton.mpr (not_comma_of_isMark hclosing (by decide))),
        List.singleton_append] at hks
      obtain ⟨k, ks, rfl, hk, hks⟩ := hks.cons
      obtain ⟨us', ks, rfl, hus', hks⟩ := hks.append
      obtain ⟨k', rfl, hk'⟩ := hks.singleton
      obtain ⟨ns, hns, hcontent⟩ := hrest us' hus'
      exact ⟨some ns, ⟨k, us', k', rfl, hopening.respelled hk, hclosing.respelled hk', hns⟩, rfl,
        hcontent⟩

/-- What is left of the assignments of the entity itself, behind other tokens. -/
theorem prune_entity {s : Statement} {front ts : List Token} {i : Nat}
    (has : AssignmentsWrittenAs vocabulary s.assignments s.compound ts)
    (hcode : Stands (front ++ ts) code) (hstay : TargetsStay gone i s.entityTargets)
    (hflags : Flags flagged gone (numberedFrom "targets" i (s.entityTargets.map .target))
      (front ++ ts)) :
    (∀ t ∈ front, flagged t = false) ∧ Stays flagged ts ∧ ∀ ks, Respells ks (kept cut ts) →
      ∃ bs compound', AssignmentsWrittenAs vocabulary bs compound' ks ∧
        ∀ (entity' : Path) (members' : Option (List Target)), entity'.text = s.entity.text →
          members'.isNone = s.members.isNone →
          (Statement.entityTargets ⟨entity', bs, compound', members'⟩).map
            (·.contentWithout .none) =
              membersWithout "targets" Target.contentWithout gone i s.entityTargets := by
  by_cases hpresent : (!s.assignments.isEmpty || s.members.isNone) = true
  · rw [Statement.entityTargets, if_pos hpresent] at hstay hflags ⊢
    obtain ⟨⟨hgone, hmembers, hkeeps⟩, _⟩ := hstay
    have hall : WritesAll vocabulary
        (numberedFrom "assignments" 0 (s.assignments.map ofAssignment)) ts :=
      forms_assignment.writesAll (laid_assignments has)
    obtain ⟨hfront, hflags⟩ := (hflags.child hgone).skip (hordered.sublist hcode.sublist) hall
    obtain ⟨hstays, hrest⟩ := prune_target vocabulary hcuts hordered has hcode.right hmembers hflags
    refine ⟨hfront, hstays, fun ks hks => ?_⟩
    obtain ⟨bs, compound', hbs, hcompound, hcontent⟩ := hrest ks hks
    refine ⟨bs, compound', hbs, fun entity' members' hentity hnone => ?_⟩
    have hpresent' : (!bs.isEmpty || members'.isNone) = true := by
      rw [hnone]
      cases has : s.assignments with
      | nil =>
          rw [has] at hpresent
          rw [show s.members.isNone = true from hpresent, Bool.or_true]
      | cons a as =>
          have hne : bs ≠ [] := by
            rintro rfl
            refine hkeeps ?_ hcontent.symm
            rw [Parser.targetOf, has]
            exact List.cons_ne_nil a as
          rw [List.isEmpty_eq_false_iff.mpr hne]
          rfl
    rw [Statement.entityTargets, if_pos hpresent', membersWithout,
      if_neg (Bool.eq_false_iff.mp hgone), List.map_singleton, membersWithout]
    simp only [hentity]
    rw [← contentWithout_targetOf hcompound hcontent]
    rfl
  · rw [Statement.entityTargets, if_neg hpresent] at hflags ⊢
    have hnone : s.assignments = [] ∧ s.members.isNone = false := by
      cases hassignments : s.assignments with
      | nil =>
          rw [hassignments] at hpresent
          exact ⟨rfl, Bool.eq_false_iff.mpr hpresent⟩
      | cons a as =>
          rw [hassignments] at hpresent
          exact absurd rfl hpresent
    rw [hnone.1] at has
    have hfree := hflags.eq_false
    obtain ⟨hfront, hts⟩ := List.forall_mem_append.mp hfree
    have hflags : Flags flagged gone [] ts := fun t ht => hflags t (List.mem_append_right front ht)
    obtain ⟨hstays, hrest⟩ := prune_assignments vocabulary hcuts hordered has 0 hcode.right
      (fun j a ha => absurd ha List.not_mem_nil) hflags
    refine ⟨hfront, hstays, fun ks hks => ?_⟩
    obtain ⟨bs, compound', hbs, _, hcontent⟩ := hrest ks hks
    refine ⟨bs, compound', hbs, fun entity' members' _ hmembers => ?_⟩
    obtain rfl : bs = [] := List.map_eq_nil_iff.mp hcontent
    rw [Statement.entityTargets, if_neg ?_]
    · rfl
    · show ¬ members'.isNone = true
      rw [hmembers, hnone.2]
      exact Bool.false_ne_true

theorem prune_statement {s : Statement} {ts : List Token} {i : Nat} (h : s.WrittenAs vocabulary ts)
    (hcode : Stands ts code) (hstay : TargetsStay gone i s.targets)
    (hflags : Flags flagged gone (numberedFrom "targets" i (s.targets.map .target)) ts) :
    Stays flagged ts ∧ ∀ ks, Respells ks (kept cut ts) →
      ∃ s' : Statement, s'.WrittenAs vocabulary ks ∧ s'.targets.map (·.contentWithout .none) =
        membersWithout "targets" Target.contentWithout gone i s.targets := by
  obtain ⟨first, us, ws, as, bs, closing, rfl, hfirst, hentity, hwith, has, hblock, hclosing⟩ := h
  have hsplit : first :: (us ++ (ws ++ (as ++ (bs ++ [closing])))) =
      ((first :: (us ++ ws)) ++ as) ++ (bs ++ [closing]) := by
    simp only [List.cons_append, List.append_assoc]
  have hwords : ∀ t ∈ ws, t.is "," = false := by
    rcases hwith with rfl | ⟨t, rfl, ht⟩
    · exact fun t ht => absurd ht List.not_mem_nil
    · exact List.forall_mem_singleton.mpr (not_comma_of_isWord ht)
  have hhead : ∀ t ∈ first :: (us ++ ws), t.is "," = false :=
    List.forall_mem_cons.mpr ⟨not_comma_of_isWord hfirst,
      List.forall_mem_append.mpr ⟨not_comma_of_path hentity, hwords⟩⟩
  have hlaid : Laid (Target.Written vocabulary) s.entityTargets ((first :: (us ++ ws)) ++ as) :=
    laid_entityTargets hentity has
      (((List.sublist_append_left us ws).cons first).append_right as)
  rw [hsplit] at hcode hflags ⊢
  rw [Statement.targets, List.map_append, numberedFrom_append, List.length_map] at hflags
  rw [Statement.targets] at hstay
  obtain ⟨hstayEntity, hstayMembers⟩ := targetsStay_append hstay
  have hbs : WritesAll vocabulary (numberedFrom "targets" (i + s.entityTargets.length)
      ((s.members.getD []).map .target)) bs := writesAll_targets (laid_block hblock)
  obtain ⟨hflagsEntity, hflags⟩ := Flags.append (hordered.sublist hcode.sublist)
    (writesAll_targets hlaid) (hbs.weaken (List.sublist_append_left bs _)) hflags
  obtain ⟨hflags, hlast⟩ := hflags.drop (hordered.sublist hcode.right.sublist) hbs
  obtain ⟨hfront, hstaysEntity, hrestEntity⟩ := prune_entity vocabulary hcuts hordered has
    hcode.left hstayEntity hflagsEntity
  obtain ⟨hstaysBlock, hrestBlock⟩ := prune_block vocabulary hcuts hordered hblock hcode.right.left
    hstayMembers hflags
  refine ⟨((Stays.of_forall hfront).append hstaysEntity).append
    (hstaysBlock.append (.of_forall hlast)), fun ks hks => ?_⟩
  rw [kept_append, kept_append, kept_append, hcuts.kept_eq hcode.left.left hfront hhead,
    hcuts.kept_eq hcode.right.right hlast
      (List.forall_mem_singleton.mpr (not_comma_of_isMark hclosing (by decide)))] at hks
  obtain ⟨front, back, rfl, hfront', hback⟩ := hks.append
  obtain ⟨front, as', rfl, hfront', has'⟩ := hfront'.append
  obtain ⟨bs', last, rfl, hbs', hlast'⟩ := hback.append
  obtain ⟨k', rfl, hk'⟩ := hlast'.singleton
  obtain ⟨k, front, rfl, hk, hfront'⟩ := hfront'.cons
  obtain ⟨us', ws', rfl, hus', hws'⟩ := hfront'.append
  obtain ⟨entity', hentity', hentities⟩ := hentity.respelled hus'
  obtain ⟨assignments', compound', hassignments', hcontent⟩ := hrestEntity as' has'
  obtain ⟨members', hmembers', hnone, hcontents⟩ := hrestBlock bs' hbs'
  have htext := Path.text_of_content hentities
  rw [← htext] at hmembers'
  refine ⟨⟨entity', assignments', compound', members'⟩, ⟨k, us', ws', as', bs', k', ?_,
    hfirst.respelled hk, hentity', ?_, hassignments', hmembers', hclosing.respelled hk'⟩, ?_⟩
  · simp only [List.cons_append, List.append_assoc]
  · rcases hwith with rfl | ⟨t, rfl, ht⟩
    · exact Or.inl hws'.nil
    · obtain ⟨k'', rfl, hk''⟩ := hws'.singleton
      exact Or.inr ⟨k'', rfl, ht.respelled hk''⟩
  · rw [Statement.targets, Statement.targets, List.map_append, membersWithout_append,
      hcontent entity' members' htext hnone, hcontents]

/-! ## Files -/

theorem prune_items : ∀ {items : List Item} {ts : List Token} {i : Nat},
    consecutive (Item.WrittenAs vocabulary) items ts → Stands ts code →
    TargetsStay gone i (targetsOf items) →
    Flags flagged gone (numberedFrom "targets" i ((targetsOf items).map .target)) ts →
    Stays flagged ts ∧ ∀ ks, Respells ks (kept cut ts) →
      ∃ items' : List Item, consecutive (Item.WrittenAs vocabulary) items' ks ∧
        (declarationsOf items').map (·.content) = (declarationsOf items).map (·.content) ∧
        (targetsOf items').map (·.contentWithout .none) =
          membersWithout "targets" Target.contentWithout gone i (targetsOf items)
  | [], ts, i, h, _, _, _ => by
      rw [consecutive] at h
      rw [h]
      exact ⟨.nil, fun ks hks => ⟨[], hks.nil, rfl, rfl⟩⟩
  | .inl d :: items, ts, i, h, hcode, hstay, hflags => by
      obtain ⟨us, vs, rfl, hd, hitems⟩ := h
      obtain ⟨hfree, hflags⟩ := hflags.skip (hordered.sublist hcode.sublist)
        (writesAll_targets (Node.laid_targets hitems))
      obtain ⟨hstays, hrest⟩ := prune_items hitems hcode.right hstay hflags
      refine ⟨(Stays.of_forall hfree).append hstays, fun ks hks => ?_⟩
      rw [kept_append, hcuts.kept_eq hcode.left hfree (not_comma_of_declaration hd)] at hks
      obtain ⟨us', vs', rfl, hus', hvs'⟩ := hks.append
      obtain ⟨d', hd', hcontent⟩ := Declaration.WrittenAs.respelled hd hus'
      obtain ⟨items', hitems', hdeclarations, htargets⟩ := hrest vs' hvs'
      refine ⟨.inl d' :: items', ⟨us', vs', rfl, hd', hitems'⟩, ?_, htargets⟩
      show d'.content :: (declarationsOf items').map (·.content) =
        d.content :: (declarationsOf items).map (·.content)
      rw [hcontent, hdeclarations]
  | .inr s :: items, ts, i, h, hcode, hstay, hflags => by
      obtain ⟨us, vs, rfl, hs, hitems⟩ := h
      have htargets : targetsOf (.inr s :: items) = s.targets ++ targetsOf items := rfl
      rw [htargets, List.map_append, numberedFrom_append, List.length_map] at hflags
      rw [htargets] at hstay
      obtain ⟨hstayStatement, hstayItems⟩ := targetsStay_append hstay
      obtain ⟨hfirst, hflags⟩ := Flags.append (hordered.sublist hcode.sublist)
        (writesAll_targets (laid_statement hs)) (writesAll_targets (Node.laid_targets hitems)) hflags
      obtain ⟨hstays, hrest⟩ := prune_statement vocabulary hcuts hordered hs hcode.left
        hstayStatement hfirst
      obtain ⟨hstays', hrest'⟩ := prune_items hitems hcode.right hstayItems hflags
      refine ⟨hstays.append hstays', fun ks hks => ?_⟩
      rw [kept_append] at hks
      obtain ⟨us', vs', rfl, hus', hvs'⟩ := hks.append
      obtain ⟨s', hs', hcontent⟩ := hrest us' hus'
      obtain ⟨items', hitems', hdeclarations, hcontents⟩ := hrest' vs' hvs'
      refine ⟨.inr s' :: items', ⟨us', vs', rfl, hs', hitems'⟩, hdeclarations, ?_⟩
      show (s'.targets ++ targetsOf items').map (·.contentWithout .none) = _
      rw [htargets, List.map_append, membersWithout_append, hcontent, hcontents]

end

end AnnotationEdit.Syntax

import AnnotationEdit.Proofs.Syntax.Grafting

/-!
# The content of grafted nodes

What a node says with another one in some place depends on what the two say, and on nothing else
(`Node.content_graft`). So files that say the same can stand for each other when several nodes are
put in their places one after the other.
-/

namespace AnnotationEdit.Syntax

namespace Node

variable {n n' m m' c : Node} {path : List String}

theorem Wraps.map_part? {α : Type} {node : α → Node} {part? : Node → Option α} {content : α → α}
    (h : Wraps node part? content) (hm : m.content = m'.content) :
    (part? m).map content = (part? m').map content := by
  cases hb : part? m' with
  | some b =>
      obtain rfl := h.eq_node hb
      obtain ⟨a, rfl, ha⟩ := h.exists_of_content hm
      rw [h.part?_node, Option.map_some, Option.map_some, ha]
  | none =>
      cases ha : part? m with
      | none => rfl
      | some a =>
          obtain rfl := h.eq_node ha
          have hnone := h.content_none hb
          rw [← hm, h.content_node, h.part?_node] at hnone
          cases hnone

/-- What takes the place of a part says the same if what it is made from does. -/
theorem Wraps.content_getD {α : Type} {node : α → Node} {part? : Node → Option α} {content : α → α}
    (h : Wraps node part? content) (hm : m.content = m'.content) {a b : α}
    (hab : content a = content b) : content ((part? m).getD a) = content ((part? m').getD b) := by
  have hparts := h.map_part? hm
  cases ha : part? m <;> cases hb : part? m' <;> rw [ha, hb] at hparts
  · exact hab
  · cases hparts
  · cases hparts
  · exact Option.some.inj hparts

/-- Below nodes that say the same stand nodes that say the same, and so it is when others are put in
the place of these. -/
structure Matches (path : List String) (n n' c c' : Node) : Prop where
  mem : (path, c') ∈ n'.children
  content_eq : c.content = c'.content
  set : ∀ m m' : Node, m.content = m'.content →
    (m.setChild path n).content = (m'.setChild path n').content

/-- The members of two lists that say the same. -/
theorem matches_numbered {α : Type} {node : α → Node} {part? : Node → Option α} {content : α → α}
    (h : Wraps node part? content) (change : Node → α → α) (whole whole' : List α → Node)
    {name : String} {es es' : List α} (heq : es.map content = es'.map content)
    (hn' : ∀ e, e ∈ numbered name (es'.map node) → e ∈ n'.children)
    (hc : (path, c) ∈ numbered name (es.map node))
    (hset : ∀ key m, setChild m [name, key] n = whole (changeAt key (change m) es))
    (hset' : ∀ key m, setChild m [name, key] n' = whole' (changeAt key (change m) es'))
    (hchange : ∀ m m' a b, m.content = m'.content → content a = content b →
      content (change m a) = content (change m' b))
    (hwhole : ∀ fs fs', fs.map content = fs'.map content →
      (whole fs).content = (whole' fs').content) :
    ∃ c', Matches path n n' c c' := by
  obtain ⟨i, a, ha, rfl, rfl⟩ := exists_of_mem_numbered hc
  have hget : (es'.map content)[i]? = some (content a) := by
    rw [← heq, List.getElem?_map, ha]
    rfl
  rw [List.getElem?_map] at hget
  obtain ⟨b, hb, hab⟩ := Option.map_eq_some_iff.mp hget
  refine ⟨node b, hn' _ (mem_numbered_map hb), ?_, fun m m' hm => ?_⟩
  · rw [h.content_node, h.content_node, hab]
  · rw [hset, hset', changeAt_toString ha, changeAt_toString hb]
    refine hwhole _ _ ?_
    rw [List.map_set, List.map_set, heq, hchange m m' a b hm hab.symm]

/-- The values of two nodes that say the same. -/
theorem matches_value (whole whole' : Option Value → Node) {value value' : Option Value}
    (heq : value.map (·.contentWithout .none) = value'.map (·.contentWithout .none))
    (hn' : ∀ v ∈ value', (["value"], ofValue v) ∈ n'.children)
    (hc : (path, c) ∈ value.toList.map fun v => (["value"], ofValue v))
    (hset : ∀ m, setChild m ["value"] n = whole (m.value?.or value))
    (hset' : ∀ m, setChild m ["value"] n' = whole' (m.value?.or value'))
    (hwhole : ∀ v v' : Option Value,
      v.map (·.contentWithout .none) = v'.map (·.contentWithout .none) →
      (whole v).content = (whole' v').content) : ∃ c', Matches path n n' c c' := by
  obtain ⟨v, rfl, rfl, rfl⟩ := exists_of_mem_part hc
  cases value' with
  | none => cases heq
  | some v' =>
      have hvv : v.contentWithout .none = v'.contentWithout .none := Option.some.inj heq
      refine ⟨ofValue v', hn' v' rfl, ?_, fun m m' hm => ?_⟩
      · rw [wraps_value.content_node, wraps_value.content_node, hvv]
      · rw [hset, hset']
        refine hwhole _ _ ?_
        have hparts := wraps_value.map_part? hm
        cases hw : m.value? <;> cases hw' : m'.value? <;> rw [hw, hw'] at hparts
        · exact heq
        · cases hparts
        · cases hparts
        · exact hparts

theorem unplaced_annotationSign {a b : Annotation}
    (h : a.contentWithout .none = b.contentWithout .none) :
    unplaced a.atSign = unplaced b.atSign := by
  obtain ⟨_, _, _, _, _, _, _⟩ := a
  obtain ⟨_, _, _, _, _, _, _⟩ := b
  rw [ Annotation.contentWithout, Annotation.contentWithout] at h
  exact ( Annotation.mk.inj h).2.1

theorem unplaced_atSign {a b : Assignment} (h : a.contentWithout .none = b.contentWithout .none) :
    unplaced a.atSign = unplaced b.atSign := by
  cases a with
  | single a =>
      cases b with
      | single b => exact unplaced_annotationSign (Assignment.single.inj h)
      | group g => cases h
  | group g =>
      cases b with
      | single b => cases h
      | group g' => exact (Group.mk.inj (Assignment.group.inj h)).2.1

section

variable {f f' : File} {t t' : Target} {a a' : Annotation} {g g' : Group} {i i' : GroupItems}
  {r r' : Record} {p p' : Property} {l l' : Collection}

theorem matches_file (hn : (file f).content = (file f').content)
    (hc : (path, c) ∈ (file f).children) (hd : ∀ d, c ≠ declaration d) :
    ∃ c', Matches path (file f) (file f') c c' := by
  obtain ⟨huri, _, hdeclarations, htargets⟩ := File.mk.inj (file.inj hn)
  have hall : ∀ ts : List Target, membersWithout "targets" Target.contentWithout
      (fun _ => false) 0 ts = ts.map (·.contentWithout .none) := membersWithout_none "targets" _ 0
  rw [hall, hall] at htargets
  rcases List.mem_append.mp hc with hc | hc
  · obtain ⟨_, d, _, _, rfl⟩ := exists_of_mem_numbered hc
    exact absurd rfl (hd d)
  refine matches_numbered wraps_target (fun m t => m.target?.getD t)
    (fun ts => file { f with targets := ts }) (fun ts => file { f' with targets := ts })
    htargets (fun _ => List.mem_append_right _) hc (fun _ _ => rfl) (fun _ _ => rfl)
    (fun _ _ _ _ hm hab => wraps_target.content_getD hm hab) fun ts ts' h => ?_
  refine congrArg file ?_
  rw [File.content, File.content, File.contentWithout, File.contentWithout, hall, hall]
  simp only [huri, hdeclarations, h]

theorem matches_target (hn : (target t).content = (target t').content)
    (hc : (path, c) ∈ (target t).children) : ∃ c', Matches path (target t) (target t') c c' := by
  obtain ⟨hkind, hname, _, _, hcompound, has⟩ := Target.mk.inj (target.inj hn)
  rw [membersWithout_none, membersWithout_none] at has
  refine matches_numbered wraps_assignment
    (fun m a => (m.assignment?.getD a).withSign a.atSign)
    (fun as => target { t with assignments := as })
    (fun as => target { t' with assignments := as })
    has (fun _ => id) hc (fun _ _ => rfl) (fun _ _ => rfl)
    (fun _ _ _ _ hm hab => Assignment.content_withSign (wraps_assignment.content_getD hm hab)
      (unplaced_atSign hab)) fun as as' h => ?_
  refine congrArg target ?_
  simp only [Target.contentWithout, membersWithout_none, hkind, hname, hcompound, h]

theorem matches_annotation (hn : ( annotation a).content = ( annotation a').content)
    (hc : (path, c) ∈ ( annotation a).children) (hq : ∀ q, c ≠ qualifier q) :
    ∃ c', Matches path ( annotation a) ( annotation a') c c' := by
  rcases List.mem_append.mp hc with hc | hc
  · obtain ⟨q, _, _, rfl⟩ := exists_of_mem_part hc
    exact absurd rfl (hq q)
  obtain ⟨range, atSign, term, qualifier, colon, value, embedded⟩ := a
  obtain ⟨range', atSign', term', qualifier', colon', value', embedded'⟩ := a'
  have hparts := annotation.inj hn
  rw [ Annotation.contentWithout, Annotation.contentWithout] at hparts
  obtain ⟨_, hsign, hterm, hqualifier, hcolon, hvalue, hembedded⟩ := Annotation.mk.inj hparts
  refine matches_value
    (fun v => annotation ⟨range, atSign, term, qualifier, colon, v, embedded⟩)
    (fun v => annotation ⟨range', atSign', term', qualifier', colon', v, embedded'⟩)
    ((valueWithout_none value).symm.trans (hvalue.trans (valueWithout_none value')))
    (fun v hv => List.mem_append_right _ (List.mem_map_of_mem (Option.mem_toList.mpr hv))) hc
    (fun _ => rfl) (fun _ => rfl) fun v v' h => ?_
  refine congrArg annotation ?_
  have hsame : valueWithout .none v = valueWithout .none v' :=
    (valueWithout_none v).trans (h.trans (valueWithout_none v').symm)
  rw [ Annotation.contentWithout, Annotation.contentWithout, hsign, hterm, hqualifier, hcolon,
    hembedded]
  exact congrArg (fun v => Annotation.mk _ _ _ _ _ v _) hsame

theorem matches_group (hn : (group g).content = (group g').content)
    (hc : (path, c) ∈ (group g).children) : ∃ c', Matches path (group g) (group g') c c' := by
  obtain ⟨_, hsign, hname, _, hitems⟩ := Group.mk.inj (group.inj hn)
  obtain ⟨rfl, rfl⟩ := Prod.mk.inj (List.mem_singleton.mp hc)
  refine ⟨groupItems g'.items, List.mem_singleton_self _, congrArg groupItems hitems,
    fun m m' hm => ?_⟩
  have hsame := wraps_groupItems.content_getD hm hitems
  refine congrArg group ?_
  simp only [Group.contentWithout, hsign, hname]
  exact congrArg (fun i => Group.mk _ _ _ _ i) hsame

theorem matches_groupItems (hn : (groupItems i).content = (groupItems i').content)
    (hc : (path, c) ∈ (groupItems i).children) :
    ∃ c', Matches path (groupItems i) (groupItems i') c c' := by
  have hitems := congrArg GroupItems.items (groupItems.inj hn)
  simp only [GroupItems.contentWithout, membersWithout_none] at hitems
  refine matches_numbered wraps_annotation
    (fun m a => (m.item?.getD a).withSign a.atSign)
    (fun as => groupItems ⟨i.range, as⟩) (fun as => groupItems ⟨i'.range, as⟩)
    hitems (fun _ => id) hc (fun _ _ => rfl) (fun _ _ => rfl)
    (fun _ _ _ _ hm hab => Annotation.content_withSign ( wraps_annotation.content_getD hm hab)
      (unplaced_annotationSign hab)) fun as as' h => ?_
  refine congrArg groupItems ?_
  simp only [GroupItems.contentWithout, membersWithout_none, h]

theorem matches_record (hn : (record r).content = (record r').content)
    (hc : (path, c) ∈ (record r).children) : ∃ c', Matches path (record r) (record r') c c' :=
  matches_numbered wraps_entry (fun m e => m.entry?.getD e)
    (fun es => record ⟨r.range, es⟩) (fun es => record ⟨r'.range, es⟩)
    (congrArg Record.entries (record.inj hn)) (fun _ => id) hc (fun _ _ => rfl) (fun _ _ => rfl)
    (fun _ _ _ _ hm hab => wraps_entry.content_getD hm hab)
    fun _ _ h => congrArg (fun es => record ⟨default, es⟩) h

theorem matches_property (hn : (property p).content = (property p').content)
    (hc : (path, c) ∈ (property p).children) :
    ∃ c', Matches path (property p) (property p') c c' := by
  obtain ⟨_, hname, hcolon, hvalue⟩ := Property.mk.inj (property.inj hn)
  refine matches_value (fun v => property { p with value := v })
    (fun v => property { p' with value := v })
    hvalue (fun v hv => List.mem_map_of_mem (Option.mem_toList.mpr hv)) hc (fun _ => rfl)
    (fun _ => rfl) fun v v' h => ?_
  simp only [content, hname, hcolon, h]

theorem matches_collection (hn : (collection l).content = (collection l').content)
    (hc : (path, c) ∈ (collection l).children) :
    ∃ c', Matches path (collection l) (collection l') c c' :=
  matches_numbered wraps_value (fun m v => m.value?.getD v)
    (fun vs => collection ⟨l.range, vs⟩) (fun vs => collection ⟨l'.range, vs⟩)
    (congrArg Collection.items (collection.inj hn)) (fun _ => id) hc (fun _ _ => rfl)
    (fun _ _ => rfl) (fun _ _ _ _ hm hab => wraps_value.content_getD hm hab)
    fun _ _ h => congrArg (fun vs => collection ⟨default, vs⟩) h

end

/-- A child of one of two nodes that say the same, other than a declaration or qualifier. -/
theorem exists_matches (hn : n.content = n'.content) (hc : (path, c) ∈ n.children)
    (hq : ∀ q, c ≠ qualifier q) (hd : ∀ d, c ≠ declaration d) : ∃ c', Matches path n n' c c' := by
  cases n with
  | file f =>
      cases n' with
      | file f' => exact matches_file hn hc hd
      | _ => cases hn
  | target t =>
      cases n' with
      | target t' => exact matches_target hn hc
      | _ => cases hn
  | annotation a =>
      cases n' with
      | annotation a' => exact matches_annotation hn hc hq
      | _ => cases hn
  | group g =>
      cases n' with
      | group g' => exact matches_group hn hc
      | _ => cases hn
  | groupItems i =>
      cases n' with
      | groupItems i' => exact matches_groupItems hn hc
      | _ => cases hn
  | record r =>
      cases n' with
      | record r' => exact matches_record hn hc
      | _ => cases hn
  | property p =>
      cases n' with
      | property p' => exact matches_property hn hc
      | _ => cases hn
  | collection l =>
      cases n' with
      | collection l' => exact matches_collection hn hc
      | _ => cases hn
  | declaration d => exact absurd hc List.not_mem_nil
  | primitive p => exact absurd hc List.not_mem_nil
  | qualifier q => exact absurd hc List.not_mem_nil

/-- Something in the place of a node: what the whole says depends on what the parts say. By
induction on the path. -/
theorem content_graft (h : n.resolve? path = some c) (hq : ∀ q, c ≠ qualifier q)
    (hd : ∀ d, c ≠ declaration d) (hn : n.content = n'.content) (hm : m.content = m'.content) :
    (m.graft path n).content = (m'.graft path n').content := by
  induction hlength : path.length using Nat.strongRecOn generalizing n n' path with
  | ind k ih =>
    rcases resolve?_eq_some_first h with ⟨rfl, rfl⟩ | ⟨first, rest, b, rfl, hb, hrest⟩
    · rw [graft, graft]
      exact hm
    · have hnot : (∀ q, b ≠ qualifier q) ∧ ∀ d, b ≠ declaration d := by
        rcases resolve?_eq_some_first hrest with ⟨_, rfl⟩ | ⟨_, _, _, _, hmem, _⟩
        · exact ⟨hq, hd⟩
        · constructor <;> rintro x rfl <;> exact List.not_mem_nil hmem
      obtain ⟨b', hmem', hcontent, hset⟩ := exists_matches hn hb hnot.1 hnot.2
      rw [graft_of_mem_children hb, graft_of_mem_children hmem']
      have hshort : rest.length < k := hlength ▸ length_lt_of_mem_children hb rest
      exact hset _ _ (ih rest.length hshort hrest hcontent rfl)

end Node

end AnnotationEdit.Syntax

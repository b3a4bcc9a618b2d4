import AnnotationEdit.Proofs.Locate.Soundness
import AnnotationEdit.Proofs.Service.Paths

/-!
# What missing references make visible

Among the new targets of a batch, each file that defines one gets at most one reference, under the
first part of the name that asked for it first. So a new target is visible with the references added
exactly when the first one that needs its file has the same first part
(`shows_withReferences_iff`); another one that is defined in the same file stays hidden.
-/

namespace AnnotationEdit

/-! ## First parts -/

namespace Text

theorem cutFirst?_append {sep : Char} : ∀ {front : List Char} (back : List Char), sep ∉ front →
    cutFirst? sep (front ++ sep :: back) = some (front, back)
  | [], back, _ => if_pos rfl
  | c :: front, back, h => by
      rw [List.mem_cons, not_or] at h
      rw [List.cons_append, cutFirst?, if_neg (Ne.symm h.1), cutFirst?_append back h.2]
      rfl

end Text

theorem firstPart_cases (name : String) :
    ('.' ∉ name.toList ∧ firstPart name = name) ∨
      ∃ front back, name.toList = front ++ '.' :: back ∧ '.' ∉ front ∧
        firstPart name = String.ofList front := by
  unfold firstPart Text.splitOnce?
  cases hcut : Text.cutFirst? '.' name.toList with
  | none => exact Or.inl ⟨Text.not_mem_of_cutFirst?_eq_none hcut, rfl⟩
  | some parts =>
      obtain ⟨front, back⟩ := parts
      exact Or.inr ⟨front, back, Text.eq_of_cutFirst? hcut, Text.not_mem_of_cutFirst? hcut, rfl⟩

theorem not_mem_firstPart (name : String) : '.' ∉ (firstPart name).toList := by
  rcases firstPart_cases name with ⟨hname, heq⟩ | ⟨front, back, _, hfront, heq⟩
  · rw [heq]
    exact hname
  · rw [heq, String.toList_ofList]
    exact hfront

theorem firstPart_eq_of_toList {name front : String} {back : List Char}
    (h : name.toList = front.toList ++ '.' :: back) (hfront : '.' ∉ front.toList) :
    firstPart name = front := by
  unfold firstPart Text.splitOnce?
  rw [h, Text.cutFirst?_append back hfront]
  exact String.ofList_toList

theorem firstPart_of_not_mem {name : String} (h : '.' ∉ name.toList) : firstPart name = name := by
  rcases firstPart_cases name with ⟨_, heq⟩ | ⟨front, back, hname, _, _⟩
  · exact heq
  · rw [hname] at h
    exact absurd (List.mem_append_right front List.mem_cons_self) h

theorem Tree.Reference.shows_iff {name entity : String} {uri : Option String} {range : Option Range}
    (hname : '.' ∉ name.toList) :
    Tree.Reference.shows ⟨name, none, uri, range⟩ entity (firstPart entity) = true ↔
      name = firstPart entity := by
  simp only [Tree.Reference.shows, Bool.or_eq_true, beq_iff_eq, reduceCtorEq, or_false]
  constructor
  · rintro ((heq | heq) | hstarts)
    · rw [← heq, firstPart_of_not_mem hname]
    · exact heq
    · obtain ⟨rest, hrest⟩ := Option.isSome_iff_exists.mp hstarts
      have hsplit := Text.dropFront?_eq_some hrest
      rw [String.toList_append, List.append_assoc] at hsplit
      exact (firstPart_eq_of_toList hsplit hname).symm
  · exact fun heq => Or.inl (Or.inr heq)

/-! ## Needs -/

/-- A new target whose definition is not visible, the first part of its name, and the other file
that defines it. -/
structure Need where
  entity : String
  root : String
  uri : String

namespace Need

def firsts (seen : List String) : List Need → List Need
  | [] => []
  | n :: rest =>
    if seen.contains n.uri then firsts seen rest else n :: firsts (n.uri :: seen) rest

theorem mem_firsts_iff {n : Need} : ∀ {seen : List String} {needs : List Need},
    n ∈ firsts seen needs ↔ n.uri ∉ seen ∧ needs.find? (·.uri == n.uri) = some n
  | seen, [] => by simp [firsts]
  | seen, m :: rest => by
      rw [firsts]
      split
      · next hseen =>
        rw [mem_firsts_iff]
        refine and_congr_right fun hn => ?_
        rw [List.find?_cons_of_neg]
        rintro huri
        rw [← beq_iff_eq.mp huri] at hn
        exact hn (List.contains_iff_mem.mp hseen)
      · next hseen =>
        rw [List.mem_cons, mem_firsts_iff]
        by_cases huri : m.uri = n.uri
        · rw [List.find?_cons_of_pos (p := fun m : Need => m.uri == n.uri) (beq_iff_eq.mpr huri)]
          constructor
          · rintro (rfl | ⟨hn, _⟩)
            · exact ⟨fun h => hseen (List.contains_iff_mem.mpr h), rfl⟩
            · exact absurd (huri ▸ List.mem_cons_self) hn
          · exact fun h => Or.inl (Option.some.inj h.2).symm
        · rw [List.find?_cons_of_neg (p := fun m : Need => m.uri == n.uri)
            fun h => huri (beq_iff_eq.mp h), List.mem_cons, not_or]
          constructor
          · rintro (rfl | ⟨⟨_, hn⟩, hfind⟩)
            · exact absurd rfl huri
            · exact ⟨hn, hfind⟩
          · exact fun ⟨hn, hfind⟩ => Or.inr ⟨⟨Ne.symm huri, hn⟩, hfind⟩

end Need

/-- The reference that an operation adds. -/
def Operation.reference? (o : Operation) : Option Tree.Reference :=
  match o.action with
  | .insertReference r => some r
  | _ => none

namespace Document

/-- What an operation needs a reference for. -/
def need? (d : Document) (resolve : ImportResolver) (o : Operation) : Option Need :=
  match o.action with
  | .insertTarget _ target =>
    if d.shows target.entity then none
    else ((ignoringErrors (resolve (firstPart target.entity) d.uri)).join.filter (· ≠ d.uri)).map
      fun uri => ⟨target.entity, firstPart target.entity, uri⟩
  | _ => none

def needs (d : Document) (resolve : ImportResolver) (operations : List Operation) : List Need :=
  operations.filterMap (d.need? resolve)

/-- The document with the references that some operations add. -/
def withReferences (d : Document) (operations : List Operation) : Document :=
  { d with tree := { d.tree with
      references := d.tree.references ++ operations.filterMap Operation.reference? } }

variable {d : Document} {layout : ProjectLayout} {resolve : ImportResolver}

theorem need?_eq_some {o : Operation} {index : Option Nat} {target : Tree.Target} {uri : String}
    (haction : o.action = .insertTarget index target) (hhidden : d.shows target.entity = false)
    (hresolve : resolve (firstPart target.entity) d.uri = .ok (some uri)) (huri : uri ≠ d.uri) :
    d.need? resolve o = some ⟨target.entity, firstPart target.entity, uri⟩ := by
  rw [need?, haction]
  dsimp only
  rw [hhidden, hresolve]
  show ((some uri).filter (· ≠ d.uri)).map _ = _
  rw [Option.filter_some, if_pos (decide_eq_true huri)]
  rfl

theorem of_need? {o : Operation} {n : Need} (h : d.need? resolve o = some n) :
    n.root = firstPart n.entity ∧ d.shows n.entity = false ∧
      resolve n.root d.uri = .ok (some n.uri) ∧ n.uri ≠ d.uri := by
  unfold need? at h
  split at h
  · next target _ =>
    split at h
    · cases h
    · next hhidden =>
      obtain ⟨uri, hfilter, rfl⟩ := Option.map_eq_some_iff.mp h
      obtain ⟨hjoin, huri⟩ := Option.filter_eq_some_iff.mp hfilter
      refine ⟨rfl, Bool.eq_false_iff.mpr hhidden, ?_, of_decide_eq_true huri⟩
      cases hresolve : resolve (firstPart target.entity) d.uri with
      | error e =>
          rw [hresolve] at hjoin
          cases hjoin
      | ok found =>
          rw [hresolve] at hjoin
          exact congrArg Except.ok hjoin
  · cases h

/-- One step of the search, in terms of the need. -/
theorem missingReferencesFrom_cons (o : Operation) (rest : List Operation) (seen : List String) :
    d.missingReferencesFrom layout resolve seen (o :: rest) =
      match d.need? resolve o with
      | none => d.missingReferencesFrom layout resolve seen rest
      | some n =>
        if seen.contains n.uri then d.missingReferencesFrom layout resolve seen rest
        else if layout.crossesBoundary d.uri n.uri then .error (.crossesBoundary d.uri n.uri)
        else (d.missingReferencesFrom layout resolve (n.uri :: seen) rest).map
          (d.referenceTo n.root n.uri :: ·) := by
  rw [missingReferencesFrom]
  split
  · next index target haction =>
    rw [need?, haction]
    dsimp only
    split
    · rfl
    · cases (ignoringErrors (resolve (firstPart target.entity) d.uri)).join with
      | none => rfl
      | some uri =>
          dsimp only
          by_cases huri : uri = d.uri
          · have hself : ¬ decide (uri ≠ d.uri) = true := fun h => of_decide_eq_true h huri
            rw [Option.filter_some, if_neg hself, decide_eq_true huri, Bool.true_or, if_pos rfl]
            rfl
          · rw [Option.filter_some, if_pos (decide_eq_true huri), decide_eq_false huri,
              Bool.false_or]
            rfl
  · next hother =>
    have hnone : d.need? resolve o = none := by
      unfold need?
      split
      · next haction => exact absurd haction (hother _ _)
      · rfl
    rw [hnone]

/-- The search succeeds when no file it finds is in another isolated part, and then gives each file
the reference of its first need. -/
theorem missingReferencesFrom_eq_ok_iff : ∀ {operations : List Operation} {seen : List String}
    {refs : List Operation},
    d.missingReferencesFrom layout resolve seen operations = .ok refs ↔
      (∀ n ∈ Need.firsts seen (d.needs resolve operations),
        layout.crossesBoundary d.uri n.uri = false) ∧
      refs = (Need.firsts seen (d.needs resolve operations)).map fun n => d.referenceTo n.root n.uri
  | [], seen, refs => by
      constructor
      · intro h
        exact ⟨fun n hn => absurd hn List.not_mem_nil, (Except.ok.inj h).symm⟩
      · rintro ⟨_, rfl⟩
        rfl
  | o :: rest, seen, refs => by
      rw [missingReferencesFrom_cons]
      cases hneed : d.need? resolve o with
      | none =>
          have hneeds : d.needs resolve (o :: rest) = d.needs resolve rest :=
            List.filterMap_cons_none hneed
          rw [hneeds]
          exact missingReferencesFrom_eq_ok_iff
      | some n =>
          have hneeds : d.needs resolve (o :: rest) = n :: d.needs resolve rest :=
            List.filterMap_cons_some hneed
          rw [hneeds, Need.firsts]
          dsimp only
          split
          · exact missingReferencesFrom_eq_ok_iff
          · rw [List.forall_mem_cons, List.map_cons]
            split
            · next hcrosses =>
              rw [hcrosses]
              constructor
              · intro h
                cases h
              · rintro ⟨⟨hinside, _⟩, _⟩
                cases hinside
            · next hinside =>
              rw [and_assoc, Bool.eq_false_iff, and_iff_right hinside]
              have ih (found : List Operation) :
                  d.missingReferencesFrom layout resolve (n.uri :: seen) rest = .ok found ↔ _ :=
                missingReferencesFrom_eq_ok_iff
              cases hrest : d.missingReferencesFrom layout resolve (n.uri :: seen) rest with
              | error e =>
                  constructor
                  · intro h
                    cases h
                  · rintro ⟨hall, _⟩
                    rw [(ih _).mpr ⟨hall, rfl⟩] at hrest
                    cases hrest
              | ok found =>
                  obtain ⟨hall, rfl⟩ := (ih found).mp hrest
                  exact ⟨fun h => ⟨hall, (Except.ok.inj h).symm⟩,
                    fun h => congrArg Except.ok h.2.symm⟩

/-- The names of the references that are added are first parts. -/
theorem shows_withReferences_eq {entity : String} (ns : List Need)
    (hroots : ∀ n ∈ ns, n.root = firstPart n.entity) :
    (d.withReferences (ns.map fun n => d.referenceTo n.root n.uri)).shows entity = true ↔
      d.shows entity = true ∨ ∃ n ∈ ns, n.root = firstPart entity := by
  have hadded : (ns.map fun n => d.referenceTo n.root n.uri).filterMap Operation.reference? =
      ns.map fun n => ⟨n.root, none, some (relativePath d.uri n.uri), none⟩ := by
    rw [List.filterMap_map, ← List.filterMap_eq_map]
    rfl
  rw [shows, withReferences, hadded, List.any_append, Bool.or_eq_true, List.any_map,
    List.any_eq_true (l := ns)]
  refine or_congr_right (exists_congr fun n => and_congr_right fun hn => ?_)
  refine Tree.Reference.shows_iff ?_
  rw [hroots n hn]
  exact not_mem_firstPart n.entity

/-- A new target that is not visible and is defined in another file becomes visible exactly when the
first new target that needs this file has the same first part. No reference leaves the isolated part
of the document. -/
theorem shows_withReferences_iff {operations refs : List Operation}
    (h : d.missingReferences layout resolve operations = .ok refs) :
    (∀ o ∈ operations, ∀ index target uri, o.action = .insertTarget index target →
      d.shows target.entity = false →
      resolve (firstPart target.entity) d.uri = .ok (some uri) → uri ≠ d.uri →
      ((d.withReferences refs).shows target.entity = true ↔
        ((d.needs resolve operations).find? (·.uri == uri)).map (·.root) =
          some (firstPart target.entity))) ∧
    ∀ o ∈ refs, ∃ name uri, o = d.referenceTo name uri ∧ resolve name d.uri = .ok (some uri) ∧
      uri ≠ d.uri ∧ layout.crossesBoundary d.uri uri = false := by
  obtain ⟨hinside, rfl⟩ := missingReferencesFrom_eq_ok_iff.mp h
  have hneeds : ∀ n ∈ d.needs resolve operations, ∃ o ∈ operations, d.need? resolve o = some n :=
    fun n hn => List.mem_filterMap.mp hn
  have hfirsts : ∀ n ∈ Need.firsts [] (d.needs resolve operations),
      n ∈ d.needs resolve operations := fun n hn =>
    List.mem_of_find?_eq_some (Need.mem_firsts_iff.mp hn).2
  refine ⟨fun o ho index target uri haction hhidden hresolve huri => ?_, fun o ho => ?_⟩
  · have hneed : (⟨target.entity, firstPart target.entity, uri⟩ : Need) ∈
        d.needs resolve operations :=
      List.mem_filterMap.mpr ⟨o, ho, need?_eq_some haction hhidden hresolve huri⟩
    rw [shows_withReferences_eq, hhidden]
    · constructor
      · rintro (hshown | ⟨n, hn, hroot⟩)
        · cases hshown
        · -- the same name is found in the same file
          obtain ⟨_, _, hof⟩ := hneeds n (hfirsts n hn)
          obtain ⟨_, _, hfound, _⟩ := of_need? hof
          rw [hroot, hresolve] at hfound
          have hsame : uri = n.uri := Option.some.inj (Except.ok.inj hfound)
          rw [hsame, (Need.mem_firsts_iff.mp hn).2, Option.map_some, hroot]
      · intro hfirst
        obtain ⟨n, hfind, hroot⟩ := Option.map_eq_some_iff.mp hfirst
        have hsame : n.uri = uri :=
          beq_iff_eq.mp (List.find?_some (p := fun m : Need => m.uri == uri) hfind)
        refine Or.inr ⟨n, Need.mem_firsts_iff.mpr ⟨List.not_mem_nil, ?_⟩, hroot⟩
        rw [hsame]
        exact hfind
    · intro n hn
      obtain ⟨_, _, hof⟩ := hneeds n (hfirsts n hn)
      exact (of_need? hof).1
  · obtain ⟨n, hn, rfl⟩ := List.mem_map.mp ho
    obtain ⟨_, _, hof⟩ := hneeds n (hfirsts n hn)
    obtain ⟨_, _, hfound, huri⟩ := of_need? hof
    exact ⟨n.root, n.uri, rfl, hfound, huri, hinside n hn⟩

/-- Three new targets, two of them of one name, that are defined in one file. -/
def neighbours : List Operation :=
  [⟨.root, .insertTarget none ⟨"A.E", none, none, []⟩⟩,
    ⟨.root, .insertTarget none ⟨"B.F", none, none, []⟩⟩,
    ⟨.root, .insertTarget none ⟨"A.G", none, none, []⟩⟩]

/-- The entities of the second name stay hidden. -/
theorem shows_withReferences_iff_neighbours :
    ∃ d refs, parse "file:///app/a.cds" "annotate X with @Y;" .default = .ok d ∧
      d.missingReferences ⟨[]⟩ (fun _ _ => .ok (some "file:///app/x.cds")) neighbours = .ok refs ∧
      (d.withReferences refs).shows "A.G" = true ∧ (d.withReferences refs).shows "B.F" = false := by
  have hchecked : ((parse "file:///app/a.cds" "annotate X with @Y;" .default).toOption.any fun d =>
      (d.missingReferences ⟨[]⟩ (fun _ _ => .ok (some "file:///app/x.cds"))
        neighbours).toOption.any fun _ => d.uri == "file:///app/a.cds" && !d.shows "A.G" &&
          !d.shows "B.F" && ((d.needs (fun _ _ => .ok (some "file:///app/x.cds"))
            neighbours).find? (·.uri == "file:///app/x.cds")).map (·.root) == some "A") = true := by
    decide +kernel
  obtain ⟨d, hparse, hchecked⟩ := Locate.exists_ok_of_any hchecked
  obtain ⟨refs, hrefs, hchecked⟩ := Locate.exists_ok_of_any hchecked
  simp only [Bool.and_eq_true, Bool.not_eq_true', beq_iff_eq] at hchecked
  obtain ⟨⟨⟨huri, hG⟩, hF⟩, hfirst⟩ := hchecked
  have hother : "file:///app/x.cds" ≠ d.uri := by
    rw [huri]
    decide
  have hshows := (shows_withReferences_iff hrefs).1
  refine ⟨d, refs, hparse, hrefs, ?_, ?_⟩
  · refine (hshows _ (List.mem_of_getElem? (i := 2) rfl) none _ _ rfl hG rfl hother).mpr ?_
    exact hfirst
  · refine Bool.eq_false_iff.mpr fun hshown => ?_
    have hroot := (hshows _ (List.mem_of_getElem? (i := 1) rfl) none _ _ rfl hF rfl hother).mp
      hshown
    rw [hfirst] at hroot
    exact absurd hroot (by decide)

end Document

end AnnotationEdit

import AnnotationEdit.Service.Basic
import Mathlib.Data.List.Induction
import Mathlib.Data.List.Nodup

/-!
# Batches over several files

A batch may name a file in several entries, and entries of different files may alternate. All that
counts is in which order the files come up and what each of them is asked for in total
(`group_eq`): every file is written on its own, and the first one that fails decides the error of
the whole batch (`apply_eq_of_grouping`).
-/

namespace AnnotationEdit

/-! ## Grouping -/

namespace FileChange

/-- The files that a batch names, in the order in which they first come up. -/
def uris (changes : List FileChange) : List String := (changes.map (·.uri)).eraseDups

/-- Everything a batch asks of one file. -/
def operationsFor (uri : String) (changes : List FileChange) : List Operation :=
  (changes.filter (·.uri == uri)).flatMap (·.operations)

theorem group_concat (changes : List FileChange) (change : FileChange) :
    group (changes ++ [change]) = change.addTo (group changes) :=
  List.foldl_concat ..

theorem uris_concat (changes : List FileChange) (change : FileChange) :
    uris (changes ++ [change]) =
      if change.uri ∈ uris changes then uris changes else uris changes ++ [change.uri] := by
  rw [uris, uris, List.map_append, List.eraseDups_append, List.map_singleton]
  by_cases h : change.uri ∈ changes.map (·.uri)
  · have hnone : [change.uri].removeAll (changes.map (·.uri)) = [] := by
      rw [List.removeAll, List.filter_singleton, List.elem_eq_mem, decide_eq_true h]
      rfl
    rw [hnone, if_pos (List.mem_eraseDups.mpr h), List.eraseDups_nil, List.append_nil]
  · have hnew : [change.uri].removeAll (changes.map (·.uri)) = [change.uri] := by
      rw [List.removeAll, List.filter_singleton, List.elem_eq_mem, decide_eq_false h]
      rfl
    rw [hnew, if_neg (mt List.mem_eraseDups.mp h)]
    rfl

theorem operationsFor_concat (uri : String) (changes : List FileChange) (change : FileChange) :
    operationsFor uri (changes ++ [change]) =
      operationsFor uri changes ++ if change.uri = uri then change.operations else [] := by
  rw [operationsFor, operationsFor, List.filter_append, List.flatMap_append]
  by_cases h : change.uri = uri
  · simp [h]
  · simp [h]

theorem nodup_uris (changes : List FileChange) : (uris changes).Nodup := by
  induction changes using List.reverseRecOn with
  | nil => exact List.nodup_nil
  | append_singleton changes change ih =>
      rw [uris_concat]
      split
      · exact ih
      · next hnew => exact List.concat_eq_append ▸ List.Nodup.concat hnew ih

theorem operationsFor_of_not_mem {uri : String} {changes : List FileChange}
    (h : uri ∉ uris changes) : operationsFor uri changes = [] := by
  rw [uris, List.mem_eraseDups, List.mem_map] at h
  have hnone : changes.filter (·.uri == uri) = [] := by
    refine List.filter_eq_nil_iff.mpr fun c hc hu => h ⟨c, hc, ?_⟩
    exact eq_of_beq hu
  rw [operationsFor, hnone, List.flatMap_nil]

/-- One more entry for a file: its operations go to the end of those it has. A file that was not
named yet comes last. -/
theorem addTo_map {change : FileChange} {operations : String → List Operation} :
    ∀ {uris : List String}, uris.Nodup → (change.uri ∉ uris → operations change.uri = []) →
      change.addTo (uris.map fun u => ⟨u, operations u⟩) =
        (if change.uri ∈ uris then uris else uris ++ [change.uri]).map fun u =>
          ⟨u, operations u ++ if change.uri = u then change.operations else []⟩
  | [], _, hnone => by
      rw [if_neg List.not_mem_nil, List.map_nil, List.nil_append, List.map_singleton, addTo,
        hnone List.not_mem_nil, if_pos rfl, List.nil_append]
  | u :: us, hnodup, hnone => by
      obtain ⟨hu, hnodup⟩ := List.nodup_cons.mp hnodup
      rw [List.map_cons, addTo]
      by_cases heq : u = change.uri
      · subst heq
        have hrest : ∀ v ∈ us, (⟨v, operations v⟩ : FileChange) =
            ⟨v, operations v ++ if change.uri = v then change.operations else []⟩ := by
          intro v hv
          rw [if_neg (ne_of_mem_of_not_mem hv hu).symm, List.append_nil]
        rw [if_pos rfl, if_pos List.mem_cons_self, List.map_cons, if_pos rfl,
          List.map_congr_left hrest]
      · have hrest : change.uri ∉ us → operations change.uri = [] := fun h =>
          hnone fun h' => h ((List.mem_cons.mp h').resolve_left (Ne.symm heq))
        rw [if_neg heq, addTo_map hnodup hrest]
        have hmem : change.uri ∈ u :: us ↔ change.uri ∈ us := by
          rw [List.mem_cons, or_iff_right (Ne.symm heq)]
        by_cases h : change.uri ∈ us
        · rw [if_pos h, if_pos (hmem.mpr h), List.map_cons, if_neg (Ne.symm heq), List.append_nil]
        · rw [if_neg h, if_neg (mt hmem.mp h), List.cons_append, List.map_cons,
            if_neg (Ne.symm heq), List.append_nil]

/-- One group for each file, in the order of the files, with all that is asked of it. -/
theorem group_eq (changes : List FileChange) :
    group changes = (uris changes).map fun uri => ⟨uri, operationsFor uri changes⟩ := by
  induction changes using List.reverseRecOn with
  | nil => rfl
  | append_singleton changes change ih =>
      rw [group_concat, ih, addTo_map (nodup_uris changes) operationsFor_of_not_mem, uris_concat]
      simp only [operationsFor_concat]

end FileChange

/-! ## Files one after the other -/

section Traversal

variable {ε α β : Type} {f : α → Except ε β}

theorem map_eq_ok_iff {x : Except ε α} {g : α → β} {b : β} :
    x.map g = .ok b ↔ ∃ a, x = .ok a ∧ g a = b := by
  cases x <;> simp [Except.map]

theorem map_eq_error_iff {x : Except ε α} {g : α → β} {e : ε} :
    x.map g = .error e ↔ x = .error e := by
  cases x <;> simp [Except.map]

/-- A traversal that succeeds gives one result for each member, beside the member. -/
theorem mapM_beside_eq_ok_iff {as : List α} {bs : List (α × β)} :
    (as.mapM fun a => (f a).map (a, ·)) = .ok bs ↔
      bs.map (·.1) = as ∧ ∀ b ∈ bs, f b.1 = .ok b.2 := by
  induction as generalizing bs with
  | nil => cases bs <;> simp [pure, Except.pure]
  | cons a as ih =>
      rw [List.mapM_cons]
      cases ha : f a with
      | error e =>
          refine ⟨(nomatch ·), ?_⟩
          rintro ⟨hkeys, hall⟩
          obtain ⟨b, bs, rfl, rfl, _⟩ := List.map_eq_cons_iff.mp hkeys
          have hb := hall b List.mem_cons_self
          rw [ha] at hb
          cases hb
      | ok r =>
          have hstep : (do
              let rest ← as.mapM fun a => (f a).map (a, ·)
              pure ((a, r) :: rest) : Except ε _) = .ok bs ↔
              ∃ rest, (as.mapM fun a => (f a).map (a, ·)) = .ok rest ∧ (a, r) :: rest = bs := by
            cases as.mapM fun a => (f a).map (a, ·) <;> simp [bind, Except.bind, pure, Except.pure]
          refine hstep.trans ⟨?_, ?_⟩
          · rintro ⟨rest, hrest, rfl⟩
            obtain ⟨hkeys, hall⟩ := ih.mp hrest
            refine ⟨by rw [List.map_cons, hkeys], fun b hb => ?_⟩
            rcases List.mem_cons.mp hb with rfl | hb
            · exact ha
            · exact hall b hb
          · rintro ⟨hkeys, hall⟩
            obtain ⟨⟨_, b⟩, rest, rfl, rfl, hrest⟩ := List.map_eq_cons_iff.mp hkeys
            have hb := hall _ List.mem_cons_self
            obtain rfl := Except.ok.inj (ha.symm.trans hb)
            exact ⟨rest, ih.mpr ⟨hrest, fun c hc => hall c (List.mem_cons_of_mem _ hc)⟩, rfl⟩

/-- The error of the first member that fails. -/
theorem mapM_eq_error_iff {e : ε} : ∀ {as : List α},
    as.mapM f = .error e ↔ ∃ before a later, as = before ++ a :: later ∧
      (∀ b ∈ before, ∃ r, f b = .ok r) ∧ f a = .error e
  | [] => by simp [pure, Except.pure]
  | a :: as => by
      rw [List.mapM_cons]
      cases ha : f a with
      | error e' =>
          constructor
          · intro h
            obtain rfl := Except.error.inj h
            exact ⟨[], a, as, rfl, fun b hb => absurd hb List.not_mem_nil, ha⟩
          · rintro ⟨before, c, later, heq, hbefore, hc⟩
            cases before with
            | nil =>
                obtain ⟨rfl, rfl⟩ := List.cons.inj heq
                obtain rfl := Except.error.inj (ha.symm.trans hc)
                rfl
            | cons b before =>
                obtain ⟨rfl, _⟩ := List.cons.inj heq
                obtain ⟨r, hr⟩ := hbefore a List.mem_cons_self
                rw [ha] at hr
                cases hr
      | ok r =>
          have hrest : (do let rs ← as.mapM f; pure (r :: rs)) = .error e ↔
              as.mapM f = .error e := by
            cases as.mapM f <;> simp [bind, Except.bind, pure, Except.pure]
          refine hrest.trans (mapM_eq_error_iff.trans ?_)
          constructor
          · rintro ⟨before, c, later, rfl, hbefore, hc⟩
            refine ⟨a :: before, c, later, rfl, fun b hb => ?_, hc⟩
            rcases List.mem_cons.mp hb with rfl | hb
            · exact ⟨r, ha⟩
            · exact hbefore b hb
          · rintro ⟨before, c, later, heq, hbefore, hc⟩
            cases before with
            | nil =>
                obtain ⟨rfl, rfl⟩ := List.cons.inj heq
                rw [ha] at hc
                cases hc
            | cons b before =>
                obtain ⟨rfl, rfl⟩ := List.cons.inj heq
                exact ⟨before, c, later, rfl, fun b hb => hbefore b (List.mem_cons_of_mem _ hb), hc⟩

end Traversal

namespace Service

open FileChange

/-- The edits that one writer makes of a file alone: it is in the store, the references that its
operations lack go into the queue first, and every operation is accepted. -/
def Writes (s : Service) (uri : String) (operations : List Operation) (edits : List TextEdit) :
    Prop :=
  ∃ document references writer, s.store.get? uri = some document ∧
    document.missingReferences s.config.layout s.resolve operations = .ok references ∧
    (Writer.ofDocument document s.config).addAll (references ++ operations) = .ok writer ∧
    writer.textEdits = .ok edits

theorem fileEdits_eq_ok_iff {s : Service} {change : FileChange} {edits : List TextEdit} :
    s.fileEdits change = .ok edits ↔ s.Writes change.uri change.operations edits := by
  unfold fileEdits Writes
  cases hget : s.store.get? change.uri with
  | none => simp [throw, throwThe, MonadExceptOf.throw]
  | some document =>
      cases hrefs : document.missingReferences s.config.layout s.resolve change.operations with
      | error e => simp [bind, Except.bind, hrefs]
      | ok references =>
          cases hadd : (Writer.ofDocument document s.config).addAll
              (references ++ change.operations) with
          | error e => simp [bind, Except.bind, hrefs, hadd]
          | ok writer => simp [bind, Except.bind, hrefs, hadd]

/-- A batch is its files, written one after the other. -/
theorem apply_eq (s : Service) (changes : List FileChange) :
    s.apply changes = ((uris changes).mapM fun uri =>
      (s.fileEdits ⟨uri, operationsFor uri changes⟩).map (uri, ·)).map WorkspaceEdit.mk := by
  rw [apply, group_eq, List.mapM_map]
  rfl

/-- A batch succeeds with one entry for each file, the edits of the file alone. -/
theorem apply_eq_ok_iff {s : Service} {changes : List FileChange} {edit : WorkspaceEdit} :
    s.apply changes = .ok edit ↔ edit.changes.map (·.1) = uris changes ∧
      ∀ entry ∈ edit.changes, s.Writes entry.1 (operationsFor entry.1 changes) entry.2 := by
  obtain ⟨entries⟩ := edit
  rw [apply_eq, map_eq_ok_iff]
  simp only [WorkspaceEdit.mk.injEq, exists_eq_right, mapM_beside_eq_ok_iff, fileEdits_eq_ok_iff]

theorem apply_singleton_eq_error_iff {s : Service} {uri : String} {operations : List Operation}
    {e : Error} :
    s.apply [⟨uri, operations⟩] = .error e ↔ s.fileEdits ⟨uri, operations⟩ = .error e := by
  have hgroup : group [⟨uri, operations⟩] = [⟨uri, operations⟩] := rfl
  rw [apply, hgroup, List.mapM_cons, List.mapM_nil]
  cases s.fileEdits ⟨uri, operations⟩ <;> simp [bind, Except.bind, pure, Except.pure, Except.map]

/-- A batch fails with the error of the first file whose own batch fails. -/
theorem apply_eq_error_iff {s : Service} {changes : List FileChange} {e : Error} :
    s.apply changes = .error e ↔ ∃ before uri later, uris changes = before ++ uri :: later ∧
      (∀ u ∈ before, ∃ edits, s.Writes u (operationsFor u changes) edits) ∧
      s.apply [⟨uri, operationsFor uri changes⟩] = .error e := by
  rw [apply_eq, map_eq_error_iff, mapM_eq_error_iff]
  have hwrites : ∀ u, (∃ r, (s.fileEdits ⟨u, operationsFor u changes⟩).map (u, ·) = .ok r) ↔
      ∃ edits, s.Writes u (operationsFor u changes) edits := by
    intro u
    simp only [map_eq_ok_iff, fileEdits_eq_ok_iff]
    constructor
    · rintro ⟨_, edits, hedits, _⟩
      exact ⟨edits, hedits⟩
    · rintro ⟨edits, hedits⟩
      exact ⟨_, edits, hedits, rfl⟩
  simp only [hwrites, map_eq_error_iff, apply_singleton_eq_error_iff]

/-- **Only the files and what each is asked for count.** Batches that name the files in one order
and ask the same of each come to the same, however they are cut into entries. A batch succeeds with
one entry for each file, in the order in which the files first come up, and the entry holds the
edits of one writer for the file alone; it fails with the error of the first file whose own batch
fails. -/
theorem apply_eq_of_grouping (s : Service) (changes : List FileChange) :
    (∀ regrouped : List FileChange, uris regrouped = uris changes →
        (∀ uri, operationsFor uri regrouped = operationsFor uri changes) →
        s.apply regrouped = s.apply changes) ∧
      (∀ edit, s.apply changes = .ok edit ↔ edit.changes.map (·.1) = uris changes ∧
        ∀ entry ∈ edit.changes, s.Writes entry.1 (operationsFor entry.1 changes) entry.2) ∧
      ∀ e, s.apply changes = .error e ↔ ∃ before uri later, uris changes = before ++ uri :: later ∧
        (∀ u ∈ before, ∃ edits, s.Writes u (operationsFor u changes) edits) ∧
        s.apply [⟨uri, operationsFor uri changes⟩] = .error e := by
  refine ⟨fun regrouped huris hoperations => ?_, fun edit => apply_eq_ok_iff,
    fun e => apply_eq_error_iff⟩
  rw [apply_eq, apply_eq, huris]
  simp only [hoperations]

end Service

end AnnotationEdit

import AnnotationEdit.Service.Basic
import Mathlib.Data.List.Dedup
import Mathlib.Data.List.Induction
import Mathlib.Data.String.Basic

/-!
# What the store holds

A service goes from step to step: a source is replaced, files are synchronized, a batch is applied.
Only a synchronization that succeeds touches the store, and then nothing of the store before it is
left (`perform_cases`). So at any time the store holds the files of the last one that succeeded, in
the texts they had at that moment, whatever has happened to the sources since
(`store_after_steps`).
-/

namespace AnnotationEdit

/-! ## Stores -/

namespace DocumentStore

/-- The uris ascend, so that none is there twice. -/
def Sorted (documents : List Document) : Prop := (documents.map (·.uri)).Pairwise (· < ·)

theorem mem_insertSorted {d e : Document} : ∀ {documents : List Document},
    e ∈ insertSorted d documents → e = d ∨ e ∈ documents
  | [], h => Or.inl (List.mem_singleton.mp h)
  | f :: rest, h => by
      rw [insertSorted] at h
      split at h
      · rcases List.mem_cons.mp h with rfl | h
        · exact Or.inl rfl
        · exact Or.inr (List.mem_cons_of_mem f h)
      · split at h
        · exact List.mem_cons.mp h
        · rcases List.mem_cons.mp h with rfl | h
          · exact Or.inr List.mem_cons_self
          · exact (mem_insertSorted h).imp_right (List.mem_cons_of_mem f)

/-- A document takes the place of one with its uri, and no other uri comes or goes. -/
theorem uri_mem_insertSorted {d : Document} {uri : String} : ∀ {documents : List Document},
    uri ∈ (insertSorted d documents).map (·.uri) ↔
      uri = d.uri ∨ uri ∈ documents.map (·.uri)
  | [] => by simp [insertSorted]
  | f :: rest => by
      rw [insertSorted]
      split
      · next heq => simp [heq]
      · split
        · simp
        · rw [List.map_cons, List.mem_cons, uri_mem_insertSorted, List.map_cons, List.mem_cons]
          exact or_left_comm

theorem sorted_insertSorted {d : Document} : ∀ {documents : List Document},
    Sorted documents → Sorted (insertSorted d documents)
  | [], _ => List.pairwise_singleton _ _
  | f :: rest, h => by
      obtain ⟨hfirst, hrest⟩ := List.pairwise_cons.mp h
      rw [insertSorted]
      split
      · next heq =>
        refine List.pairwise_cons.mpr ⟨fun u hu => ?_, hrest⟩
        exact lt_of_eq_of_lt heq (hfirst u hu)
      · next hne =>
        split
        · next hlt =>
          refine List.pairwise_cons.mpr ⟨fun u hu => ?_, h⟩
          rcases List.mem_cons.mp hu with rfl | hu
          · exact hlt
          · exact lt_trans hlt (hfirst u hu)
        · next hlt =>
          have hgt : f.uri < d.uri := lt_of_le_of_ne (not_lt.mp hlt) (Ne.symm hne)
          refine List.pairwise_cons.mpr ⟨fun u hu => ?_, sorted_insertSorted hrest⟩
          rcases uri_mem_insertSorted.mp hu with rfl | hu
          · exact hgt
          · exact hfirst u hu

theorem ofDocuments_concat (documents : List Document) (d : Document) :
    ofDocuments (documents ++ [d]) = (ofDocuments documents).insert d :=
  List.foldl_concat ..

/-- The documents of a store are among those it was made of, one for each of their uris. -/
theorem ofDocuments_holds (documents : List Document) :
    Sorted (ofDocuments documents).documents ∧
      (∀ d ∈ (ofDocuments documents).documents, d ∈ documents) ∧
      ∀ uri, uri ∈ (ofDocuments documents).documents.map (·.uri) ↔
        uri ∈ documents.map (·.uri) := by
  induction documents using List.reverseRecOn with
  | nil => exact ⟨List.Pairwise.nil, fun d hd => hd, fun uri => Iff.rfl⟩
  | append_singleton documents d ih =>
      obtain ⟨hsorted, hmem, huris⟩ := ih
      rw [ofDocuments_concat]
      refine ⟨sorted_insertSorted hsorted, fun e he => ?_, fun uri => ?_⟩
      · rcases mem_insertSorted he with rfl | he
        · exact List.mem_append_right _ (List.mem_singleton.mpr rfl)
        · exact List.mem_append_left _ (hmem e he)
      · rw [insert, uri_mem_insertSorted, huris, List.map_append, List.mem_append, or_comm]
        simp

/-- The store holds one document for each of the uris and no other. Each is read from the text its
file has, and is a ghost exactly when its uri is among the ghosts. -/
structure Holds (store : DocumentStore) (text? : String → Option String)
    (ghosts uris : List String) : Prop where
  uris_perm : (store.documents.map (·.uri)).Perm uris.dedup
  isRead : ∀ d ∈ store.documents, ∃ text parsed, text? d.uri = some text ∧
    Document.parse d.uri text Configuration.default = .ok parsed ∧
    d = { parsed with ghost := decide (d.uri ∈ ghosts) }

end DocumentStore

/-! ## Compiling -/

namespace Compiler

/-- What the compiler reads for a uri. -/
def Reads (c : Compiler) (uri : String) (d : Document) : Prop :=
  ∃ text, c.source? uri = some text ∧ c.read uri text = .ok d

theorem source?_setSource (c : Compiler) (u text uri : String) :
    (c.setSource u text).source? uri = if u = uri then some text else c.source? uri := by
  rw [source?, setSource, List.lookup_cons]
  by_cases hu : u = uri
  · simp [hu]
  · rw [if_neg hu, beq_false_of_ne (Ne.symm hu)]
    rfl

theorem isEmpty_add {uri : String} {d : Diagnostic} (diagnostics : Diagnostics) :
    (diagnostics.add uri d).isEmpty = false := by
  cases diagnostics with
  | nil => rfl
  | cons first rest =>
      rw [Diagnostics.add]
      split <;> rfl

/-- A compilation that succeeds has read every file it was asked for, in that order. A syntax error
anywhere is kept to the end, so that none can have come up. -/
theorem forall₂_of_compileFrom {c : Compiler} : ∀ {uris : List String} {documents : List Document}
    {diagnostics : Diagnostics} {out : List Document},
    c.compileFrom documents diagnostics uris = .ok (.parsed out) →
      diagnostics.isEmpty = true ∧ ∃ new, out = documents ++ new ∧ List.Forall₂ c.Reads uris new
  | [], documents, diagnostics, out, h => by
      rw [compileFrom] at h
      split at h
      · next hempty =>
        cases h
        exact ⟨hempty, [], (List.append_nil _).symm, .nil⟩
      · cases h
  | uri :: rest, documents, diagnostics, out, h => by
      rw [compileFrom] at h
      split at h
      · cases h
      · next text htext =>
        split at h
        · next d hread =>
          obtain ⟨hempty, new, rfl, hnew⟩ := forall₂_of_compileFrom h
          exact ⟨hempty, d :: new, by simp, .cons ⟨text, htext, hread⟩ hnew⟩
        · have hempty := (forall₂_of_compileFrom h).1
          rw [isEmpty_add] at hempty
          cases hempty

theorem uri_of_parse {uri text : String} {config : Configuration} {d : Document}
    (h : Document.parse uri text config = .ok d) : d.uri = uri := by
  unfold Document.parse at h
  simp only [bind, Except.bind] at h
  split at h
  · cases h
  · split at h
    · cases h
    · rw [← Except.ok.inj h]

theorem exists_parsed_of_read {c : Compiler} {uri text : String} {d : Document}
    (h : c.read uri text = .ok d) :
    d.uri = uri ∧ ∃ parsed, Document.parse uri text Configuration.default = .ok parsed ∧
      d = { parsed with ghost := decide (uri ∈ c.ghosts) } := by
  unfold read at h
  cases hparse : Document.parse uri text Configuration.default with
  | error e => rw [hparse] at h; cases h
  | ok parsed =>
      rw [hparse] at h
      obtain rfl := Except.ok.inj h
      refine ⟨(uri_of_parse hparse :), parsed, rfl, ?_⟩
      rw [List.contains_eq_mem]

end Compiler

/-- The documents that were read have the uris that were asked for. -/
theorem Compiler.uris_of_forall₂ {c : Compiler} {uris : List String} {documents : List Document}
    (h : List.Forall₂ c.Reads uris documents) :
    documents.map (·.uri) = uris ∧ ∀ d ∈ documents, c.Reads d.uri d := by
  induction h with
  | nil => exact ⟨rfl, fun d hd => absurd hd List.not_mem_nil⟩
  | cons hread _ ih =>
      obtain ⟨text, htext, hread⟩ := hread
      obtain ⟨rfl, _⟩ := exists_parsed_of_read hread
      refine ⟨by rw [List.map_cons, ih.1], fun e he => ?_⟩
      rcases List.mem_cons.mp he with rfl | he
      · exact ⟨text, htext, hread⟩
      · exact ih.2 e he

open DocumentStore in
/-- A store made of the files that were read holds these files. -/
theorem Compiler.holds_of_forall₂ {c : Compiler} {uris : List String} {documents : List Document}
    (h : List.Forall₂ c.Reads uris documents) :
    (ofDocuments documents).Holds c.source? c.ghosts uris := by
  obtain ⟨hsorted, hmem, huris⟩ := ofDocuments_holds documents
  obtain ⟨hmap, hreads⟩ := uris_of_forall₂ h
  constructor
  · have hnodup : ((ofDocuments documents).documents.map (·.uri)).Nodup := hsorted.imp ne_of_lt
    refine (List.perm_ext_iff_of_nodup hnodup (List.nodup_dedup uris)).mpr fun uri => ?_
    rw [huris, hmap, List.mem_dedup]
  · intro d hd
    obtain ⟨text, htext, hread⟩ := hreads d (hmem d hd)
    obtain ⟨_, parsed, hparse, hghost⟩ := exists_parsed_of_read hread
    exact ⟨text, parsed, htext, hparse, hghost⟩

/-! ## Steps of a service -/

namespace Service

/-- One thing that a service is asked for, or that happens to its sources. -/
inductive Step where
  | replaceSource (uri text : String)
  | synchronize (uris : List String)
  | apply (changes : List FileChange)

/-- What comes back from a step. -/
inductive Answer where
  | replaced
  | synchronized (outcome : Except Error SyncOutcome)
  | applied (edit : Except Error WorkspaceEdit)

/-- The files were read. -/
def Answer.isSynchronized : Answer → Bool
  | synchronized (.ok (.synchronized _)) => true
  | _ => false

/-- The answer to a step, and the service after it. -/
def perform (s : Service) : Step → Answer × Service
  | .replaceSource uri text => (.replaced, s.setSource uri text)
  | .synchronize uris =>
    match s.synchronize uris with
    | .ok (outcome, next) => (.synchronized (.ok outcome), next)
    | .error e => (.synchronized (.error e), s)
  | .apply changes => (.applied (s.apply changes), s)

/-- The service after some steps. -/
def afterSteps (s : Service) (steps : List Step) : Service :=
  steps.foldl (fun s step => (s.perform step).2) s

/-- None of the steps reads files into the store. -/
def NeverSynchronizes (s : Service) (steps : List Step) : Prop :=
  ∀ before step later, steps = before ++ step :: later →
    ((s.afterSteps before).perform step).1.isSynchronized = false

/-- The text that a step gives to a file. -/
def Step.textFor? (uri : String) : Step → Option String
  | replaceSource u text => if u = uri then some text else none
  | _ => none

/-- The text of a file after some steps: the last one it was given, or the one it had before. -/
def textAfter? (c : Compiler) (steps : List Step) (uri : String) : Option String :=
  (steps.filterMap (Step.textFor? uri)).getLast?.or (c.source? uri)

theorem afterSteps_concat (s : Service) (steps : List Step) (step : Step) :
    s.afterSteps (steps ++ [step]) = ((s.afterSteps steps).perform step).2 :=
  List.foldl_concat ..

theorem afterSteps_append (s : Service) (steps later : List Step) :
    s.afterSteps (steps ++ later) = (s.afterSteps steps).afterSteps later :=
  List.foldl_append ..

theorem neverSynchronizes_nil (s : Service) : s.NeverSynchronizes [] := by
  intro before step later h
  exact absurd h.symm (List.append_ne_nil_of_right_ne_nil before (List.cons_ne_nil step later))

theorem NeverSynchronizes.concat {s : Service} {steps : List Step} {step : Step}
    (h : s.NeverSynchronizes steps)
    (hstep : ((s.afterSteps steps).perform step).1.isSynchronized = false) :
    s.NeverSynchronizes (steps ++ [step]) := by
  intro before last later heq
  rcases List.eq_nil_or_concat later with rfl | ⟨front, final, rfl⟩
  · obtain ⟨rfl, hlast⟩ := List.append_inj' heq rfl
    obtain rfl := List.singleton_inj.mp hlast
    exact hstep
  · rw [List.concat_eq_append, ← List.cons_append, ← List.append_assoc] at heq
    exact h before last front (List.append_inj_left' heq rfl)

/-- What a synchronization comes to: the compiler stays, and either the store is made anew of the
files that were read, or it stays as well. -/
theorem synchronize_eq_ok {s next : Service} {uris : List String} {outcome : SyncOutcome}
    (h : s.synchronize uris = .ok (outcome, next)) :
    next.compiler = s.compiler ∧
      ((outcome = .synchronized next.store.size ∧
          next.store.Holds s.compiler.source? s.compiler.ghosts uris) ∨
        ((∃ diagnostics, outcome = .failed diagnostics) ∧ next.store = s.store)) := by
  unfold synchronize DocumentStore.synchronize at h
  cases hcompile : s.compiler.compile uris with
  | error e => rw [hcompile] at h; cases h
  | ok compilation =>
      rw [hcompile] at h
      cases compilation with
      | parsed documents =>
          cases h
          obtain ⟨_, new, rfl, hnew⟩ := Compiler.forall₂_of_compileFrom hcompile
          exact ⟨rfl, Or.inl ⟨rfl, Compiler.holds_of_forall₂ hnew⟩⟩
      | failed diagnostics =>
          cases h
          exact ⟨rfl, Or.inr ⟨⟨diagnostics, rfl⟩, rfl⟩⟩

/-- What a step can do to the store: it is replaced by the files of a synchronization that
succeeds, and the answer says how many there are, or it stays as it was. -/
theorem perform_cases (s : Service) (step : Step) :
    (∃ uris, step = .synchronize uris ∧
        (s.perform step).1 = .synchronized (.ok (.synchronized (s.perform step).2.store.size)) ∧
        (s.perform step).2.store.Holds s.compiler.source? s.compiler.ghosts uris) ∨
      ((s.perform step).1.isSynchronized = false ∧ (s.perform step).2.store = s.store) := by
  cases step with
  | replaceSource uri text => exact Or.inr ⟨rfl, rfl⟩
  | apply changes => exact Or.inr ⟨rfl, rfl⟩
  | synchronize uris =>
      cases hsync : s.synchronize uris with
      | error e =>
          rw [perform, hsync]
          exact Or.inr ⟨rfl, rfl⟩
      | ok result =>
          obtain ⟨outcome, next⟩ := result
          rw [perform, hsync]
          rcases (synchronize_eq_ok hsync).2 with ⟨rfl, hholds⟩ | ⟨⟨diagnostics, rfl⟩, hstore⟩
          · exact Or.inl ⟨uris, rfl, rfl, hholds⟩
          · exact Or.inr ⟨rfl, hstore⟩

/-- A step changes no more of the compiler than the text it gives to a file. -/
theorem compiler_perform (s : Service) (step : Step) :
    (s.perform step).2.compiler.ghosts = s.compiler.ghosts ∧
      ∀ uri, (s.perform step).2.compiler.source? uri =
        (step.textFor? uri).or (s.compiler.source? uri) := by
  cases step with
  | replaceSource u text =>
      refine ⟨rfl, fun uri => ?_⟩
      rw [perform, setSource, Compiler.source?_setSource, Step.textFor?]
      split <;> rfl
  | apply changes => exact ⟨rfl, fun uri => rfl⟩
  | synchronize uris =>
      cases hsync : s.synchronize uris with
      | error e =>
          rw [perform, hsync]
          exact ⟨rfl, fun uri => rfl⟩
      | ok result =>
          obtain ⟨outcome, next⟩ := result
          rw [perform, hsync]
          have hcompiler := (synchronize_eq_ok hsync).1
          exact ⟨congrArg _ hcompiler, fun uri => congrArg (·.source? uri) hcompiler⟩

theorem compiler_afterSteps (s : Service) (steps : List Step) :
    (s.afterSteps steps).compiler.ghosts = s.compiler.ghosts ∧
      (s.afterSteps steps).compiler.source? = textAfter? s.compiler steps := by
  induction steps using List.reverseRecOn with
  | nil => exact ⟨rfl, rfl⟩
  | append_singleton steps step ih =>
      obtain ⟨hghosts, hsources⟩ := ih
      obtain ⟨hghosts', hsources'⟩ := compiler_perform (s.afterSteps steps) step
      rw [afterSteps_concat]
      refine ⟨hghosts'.trans hghosts, funext fun uri => ?_⟩
      rw [hsources', hsources, textAfter?, textAfter?, List.filterMap_append]
      cases htext : step.textFor? uri <;> simp [htext]

/-- **The store after any steps.** It is empty as long as no synchronization has succeeded, and
holds the files of the last one that has, in the texts they had then. One more step answers that
the files are read, with the number of documents in the store, or it leaves the store as it is. -/
theorem store_after_steps (c : Compiler) (config : Configuration) (resolve : ImportResolver)
    (steps : List Step) :
    ((NeverSynchronizes (.new c config resolve) steps ∧
          (afterSteps (.new c config resolve) steps).store = DocumentStore.empty) ∨
        ∃ before uris later, steps = before ++ .synchronize uris :: later ∧
          (perform (afterSteps (.new c config resolve) before)
            (.synchronize uris)).1.isSynchronized = true ∧
          NeverSynchronizes
            (afterSteps (.new c config resolve) (before ++ [.synchronize uris])) later ∧
          (afterSteps (.new c config resolve) steps).store.Holds
            (textAfter? c before) c.ghosts uris) ∧
      ∀ step, let s := afterSteps (.new c config resolve) steps
        (∃ uris, step = .synchronize uris ∧
            (s.perform step).1 =
              .synchronized (.ok (.synchronized (s.perform step).2.store.size))) ∨
          ((s.perform step).1.isSynchronized = false ∧ (s.perform step).2.store = s.store) := by
  constructor
  · induction steps using List.reverseRecOn with
    | nil => exact Or.inl ⟨neverSynchronizes_nil _, rfl⟩
    | append_singleton steps step ih =>
        rw [afterSteps_concat]
        obtain ⟨hghosts, hsources⟩ := compiler_afterSteps (.new c config resolve) steps
        rcases perform_cases (afterSteps (.new c config resolve) steps) step with
          ⟨uris, rfl, hanswer, hholds⟩ | ⟨hanswer, hstore⟩
        · rw [hghosts, hsources] at hholds
          exact Or.inr ⟨steps, uris, [], rfl, congrArg Answer.isSynchronized hanswer,
            neverSynchronizes_nil _, hholds⟩
        · rw [hstore]
          rcases ih with ⟨hnever, hempty⟩ | ⟨before, uris, later, rfl, hsync, hnever, hholds⟩
          · exact Or.inl ⟨hnever.concat hanswer, hempty⟩
          · refine Or.inr ⟨before, uris, later ++ [step], by simp, hsync, ?_, hholds⟩
            refine hnever.concat ?_
            rw [← afterSteps_append]
            simpa using hanswer
  · intro step s
    rcases s.perform_cases step with ⟨uris, hstep, hanswer, _⟩ | hsame
    · exact Or.inl ⟨uris, hstep, hanswer⟩
    · exact Or.inr hsame

end Service

end AnnotationEdit

import AnnotationEdit.Proofs.Writer.Exchange
import AnnotationEdit.Proofs.Writer.Insertions

/-!
# Two insertions in either order

Insertions for different nodes are written at different places (`Scene.separate`), except where one
puts a new member right behind a member without a value and the other is for that member
(`Operation.Crowds`). The edits of a batch of two insertions that do not crowd each other do not
depend on the order in which they were added (`synthesize_swap`), and so neither does the text
(`Writer.editedText_swap`).
-/

namespace AnnotationEdit

open Syntax (Node)
open Batch (carriedOut isBareSingle)

/-- `b` is for a member without a value, and `a` puts a new member right behind that one. -/
def Operation.Crowds (file : Syntax.File) (a b : Operation) : Prop :=
  ∃ list member name i, file.resolve? a.pointer = some list ∧
    file.resolve? b.pointer = some member ∧ b.pointer = a.pointer.append [name, toString i] ∧
    member.isValueless = true ∧ PutsBehind list.memberRanges list.listEnd a.index? i

namespace Scene

variable {s s' : Scene} {o : Operation} {d d' : Draft} {n : Node} {p : Pointer}

/-! ## Two insertions at different places -/

/-- Each of two operations adds to a draft, and nowhere where the other does. -/
def Separate (s : Scene) (a b : Operation) : Prop :=
  ∃ c d : Draft,
    c.Contributes a.pointer (fun e => s.writeAll e (carriedOut s.document.syntaxTree a)) ∧
    d.Contributes b.pointer (fun e => s.writeAll e (carriedOut s.document.syntaxTree b)) ∧
    ∀ x ∈ c.spots, x ∉ d.spots

theorem Separate.symm {a b : Operation} (h : s.Separate a b) : s.Separate b a := by
  obtain ⟨c, d, hc, hd, hspots⟩ := h
  exact ⟨d, c, hd, hc, fun x hx hx' => hspots x hx' hx⟩

theorem Parsed.plots (hs : s.Parsed) : ∃ vocabulary,
    Syntax.Sited (Syntax.Target.Plotted vocabulary) s.document.syntaxTree.targets s.code := by
  obtain ⟨uri, text, config, hparse, _⟩ := hs
  obtain ⟨items, hitems, _, htargets⟩ := Document.written_file hparse
  rw [htargets]
  exact ⟨_, Syntax.plots_of_consecutive hitems⟩

theorem Parsed.exists_plot (hs : s.Parsed) {t : Syntax.Target}
    (ht : t ∈ s.document.syntaxTree.targets) : ∃ us ws vs mark front back,
      s.Plot t us ws vs mark ∧ s.code = front ++ ((us ++ (ws ++ (vs ++ [mark]))) ++ back) := by
  obtain ⟨vocabulary, hplots⟩ := hs.plots
  obtain ⟨front, _, back, hcode, us, ws, vs, mark, rfl, hplotted⟩ := hplots.exists_site t ht
  refine ⟨us, ws, vs, mark, front, back, ⟨⟨vocabulary, hplotted⟩, ?_⟩, hcode⟩
  rw [hcode]
  exact (List.sublist_append_left _ back).trans (List.sublist_append_right front _)

section Pairs

variable {a b : Operation} {i j : Nat} {t t' : Syntax.Target} {rest rest' : List String} {m : Node}

/-- A target or a reference is written nowhere where something for a target is. -/
theorem separate_of_root (hs : s.Ready) (ha : a.Inserts) (hfits : a.Fits s.document.syntaxTree)
    (hroot : a.pointer = .root) (hb : s.Reaches b i t rest n) : s.Separate a b := by
  obtain ⟨us, ws, vs, mark, front, back, hplot, hcode⟩ :=
    hs.parsed.exists_plot (List.mem_of_getElem? hb.target)
  obtain ⟨c, hc, hoff⟩ := writesAt_statement hs.parsed ha hroot hfits
  obtain ⟨d, hd, hon, _⟩ := hb.exists_contribution hs hplot
  refine ⟨c, d, hc, hd, fun x hx hx' => ?_⟩
  obtain ⟨hstart, hstop⟩ := (hon x hx').1
  rcases (hoff x hx).2 t us ws vs mark front back hplot hcode with hle | hlt
  · exact absurd hstart (not_lt_of_ge hle)
  · exact absurd hstop (not_le_of_gt hlt)

/-- Different targets have different plots. -/
theorem separate_of_lt (hs : s.Ready) (hij : i < j) (ha : s.Reaches a i t rest n)
    (hb : s.Reaches b j t' rest' m) : s.Separate a b := by
  obtain ⟨vocabulary, hplots⟩ := hs.parsed.plots
  obtain ⟨_, _, hsub, ⟨us, ws, vs, mark, rfl, hplotted⟩, us', ws', vs', mark', rfl, hplotted'⟩ :=
    hplots.exists_sites hij ha.target hb.target
  have hplot : s.Plot t us ws vs mark :=
    ⟨⟨vocabulary, hplotted⟩, (List.sublist_append_left _ _).trans hsub⟩
  have hplot' : s.Plot t' us' ws' vs' mark' :=
    ⟨⟨vocabulary, hplotted'⟩, (List.sublist_append_right _ _).trans hsub⟩
  obtain ⟨c, hc, hon, _⟩ := ha.exists_contribution hs hplot
  obtain ⟨d, hd, hon', _⟩ := hb.exists_contribution hs hplot'
  refine ⟨c, d, hc, hd, fun x hx hx' => ?_⟩
  have hlt : mark.range.start < t'.range.start := by
    obtain ⟨k, hk, _⟩ := hplot.exists_mark
    obtain ⟨⟨u, hu, hstart⟩, _⟩ := hplotted'.name.exists_mem
    have happart := (hs.parsed.sorted.sublist (hsub.trans List.filter_sublist)).apart
    rw [hplot'.start_eq, hstart]
    exact lt_of_lt_of_le (hs.parsed.sorted.proper hk) ((List.pairwise_append.mp happart).2.2 mark
      (by simp) u (List.mem_append_left _ hu))
  exact absurd (le_trans (hon x hx).1.2 (le_of_lt hlt)) (not_le_of_gt (hon' x hx').1.1)

/-- An insertion below the node of another one meets it only at a member without a value. -/
theorem crowds_of_below (hs : s.Ready) (ha : s.Reaches a i t rest n) {more : List String}
    (hb : s.Reaches b i t (rest ++ more) m) (hm : n.resolve? more = some m) (hmore : more ≠ [])
    {x : Position} (hclear : n.Clear a.index? x) (hhosts : m.Hosts b.index? x) :
    a.Crowds s.document.syntaxTree b := by
  obtain ⟨vocabulary, ts, hwritten, hts⟩ := hs.parsed.exists_ordered ha.resolve
  obtain ⟨name, k, rfl, hvalueless, hputs⟩ :=
    Node.exists_member_of_clear hwritten hts ha.ne_file hm hmore hclear hhosts hb.ne_qualifier
  refine ⟨n, m, name, k, ha.resolve, hb.resolve, ?_, hvalueless, hputs⟩
  rw [ha.pointer, hb.pointer]
  rfl

/-- At one target, insertions that do not crowd each other are written at different places. -/
theorem separate_of_target (hs : s.Ready) (ha : s.Reaches a i t rest n)
    (hb : s.Reaches b i t rest' m) (hne : a.pointer ≠ b.pointer)
    (hab : ¬ a.Crowds s.document.syntaxTree b) (hba : ¬ b.Crowds s.document.syntaxTree a) :
    s.Separate a b := by
  obtain ⟨us, ws, vs, mark, front, back, hplot, _⟩ :=
    hs.parsed.exists_plot (List.mem_of_getElem? ha.target)
  obtain ⟨c, hc, hclear, hhosts⟩ := ha.exists_contribution hs hplot
  obtain ⟨d, hd, hclear', hhosts'⟩ := hb.exists_contribution hs hplot
  refine ⟨c, d, hc, hd, fun x hx hx' => ?_⟩
  rcases Node.below_or_diverge ha.node hb.node with
    ⟨more, rfl, hm⟩ | ⟨more, rfl, hn⟩ | ⟨hrest, hrest', front, parent, path, u, more, path', v,
      more', hparent, hu, hmore, hv, hmore', hpath⟩
  · have hmore : more ≠ [] := by
      rintro rfl
      rw [List.append_nil] at hb
      exact hne (ha.pointer.trans hb.pointer.symm)
    obtain ⟨hnormal, hhost⟩ := hhosts' (List.append_ne_nil_of_right_ne_nil _ hmore) x hx'
    exact hab (crowds_of_below hs ha hb hm hmore ((hclear x hx).2 hnormal) hhost)
  · have hmore : more ≠ [] := by
      rintro rfl
      rw [List.append_nil] at ha
      exact hne (ha.pointer.trans hb.pointer.symm)
    obtain ⟨hnormal, hhost⟩ := hhosts (List.append_ne_nil_of_right_ne_nil _ hmore) x hx
    exact hba (crowds_of_below hs hb ha hn hmore ((hclear' x hx').2 hnormal) hhost)
  · -- the two are in different children of one node
    obtain ⟨vocabulary, ts, hwritten, hts⟩ := hs.parsed.exists_ordered ha.resolve_target
    obtain ⟨ts', hts', hwritten'⟩ := Node.exists_resolved hwritten hparent
    have hordered := hts.sublist hts'
    have hinside : ∀ {path : List String} {u k : Node} {more : List String},
        (path, u) ∈ parent.children → u.resolve? more = some k →
          u.range.contains k.range = true := by
      intro path u k more hu hmore
      obtain ⟨_, hsub, hpart⟩ := Node.exists_child hwritten' hu
      exact Node.contains_resolved hpart (hordered.sublist hsub) (Syntax.ne_file_of_mem_children hu)
        hmore
    have hfile := Node.ne_file_of_resolve? (fun _ => Node.noConfusion) hparent
    have hhost := (hhosts hrest x hx).2
    have hhost' := (hhosts' hrest' x hx').2
    rcases Node.apart_of_mem_children hwritten' hordered hfile hu hv hpath with hbefore | hbefore
    · exact Node.not_hosts_of_before hbefore (hinside hu hmore) (hinside hv hmore') hhost hhost'
    · exact Node.not_hosts_of_before hbefore (hinside hv hmore') (hinside hu hmore) hhost' hhost

/-- Insertions for different nodes that do not crowd each other are written at different places. -/
theorem separate (hs : s.Ready) (ha : a.Inserts) (hb : b.Inserts)
    (hfits : ∀ o ∈ [a, b], o.Fits s.document.syntaxTree) (hne : a.pointer ≠ b.pointer)
    (hab : ¬ a.Crowds s.document.syntaxTree b) (hba : ¬ b.Crowds s.document.syntaxTree a) :
    s.Separate a b := by
  obtain ⟨hfitsA, hfitsB⟩ : a.Fits s.document.syntaxTree ∧ b.Fits s.document.syntaxTree :=
    ⟨hfits a (by simp), hfits b (by simp)⟩
  rcases root_or_reaches ha hfitsA with hroot | ⟨i, t, rest, n, hreaches⟩
  · rcases root_or_reaches hb hfitsB with hroot' | ⟨j, t', rest', m, hreaches'⟩
    · exact absurd (hroot.trans hroot'.symm) hne
    · exact separate_of_root hs ha hfitsA hroot hreaches'
  · rcases root_or_reaches hb hfitsB with hroot' | ⟨j, t', rest', m, hreaches'⟩
    · exact (separate_of_root hs hb hfitsB hroot' hreaches).symm
    · rcases Nat.lt_trichotomy i j with hij | rfl | hji
      · exact separate_of_lt hs hij hreaches hreaches'
      · have htargets := hreaches.target.symm.trans hreaches'.target
        obtain rfl := Option.some.inj htargets
        exact separate_of_target hs hreaches hreaches' hne hab hba
      · exact (separate_of_lt hs hji hreaches' hreaches).symm

end Pairs

/-! ## One after the other -/

theorem writeAll_append {l : List Operation} (more : List Operation) :
    ∀ {d : Draft}, s.writeAll d l = .ok d' → s.writeAll d (l ++ more) = s.writeAll d' more := by
  induction l with
  | nil =>
      intro d h
      obtain rfl := Except.ok.inj h
      rfl
  | cons o l ih =>
      intro d h
      rw [List.cons_append, writeAll]
      rw [writeAll] at h
      cases hwrite : recoverable (s.write d o) with
      | error e =>
          rw [hwrite] at h
          cases h
      | ok written =>
          rw [hwrite] at h
          exact ih h

/-- What is written at different places is written the same in either order. -/
theorem Separate.finish {a b : Operation} (h : s.Separate a b) (hne : a.pointer ≠ b.pointer) :
    (s.writeAll .empty
      (carriedOut s.document.syntaxTree a ++ carriedOut s.document.syntaxTree b) >>= s.finish) =
    (s.writeAll .empty
      (carriedOut s.document.syntaxTree b ++ carriedOut s.document.syntaxTree a) >>= s.finish) := by
  obtain ⟨c, e, hc, he, hspots⟩ := h
  have hspots' : ∀ x ∈ e.spots, x ∉ c.spots := fun x hx hx' => hspots x hx' hx
  have hfirst := hc.adds .empty Draft.apart_empty
  have hfirst' := he.adds .empty Draft.apart_empty
  rw [Draft.empty_append] at hfirst hfirst'
  rw [writeAll_append _ hfirst, writeAll_append _ hfirst', he.adds c (hc.only.apart hne hspots),
    hc.adds e (he.only.apart hne.symm hspots')]
  exact finish_append_comm hc.only he.only hspots

/-- Scenes of one document in which the same targets get parentheses. -/
structure Alike (s s' : Scene) : Prop where
  document : s.document = s'.document
  config : s.config = s'.config
  replaced : s.replaced = s'.replaced
  isConverting : s.isConverting = s'.isConverting

theorem Alike.write (h : s.Alike s') (d : Draft) (o : Operation) : s.write d o = s'.write d o := by
  obtain ⟨document, config, converting, replaced⟩ := s
  obtain ⟨document', config', converting', replaced'⟩ := s'
  obtain ⟨rfl, rfl, rfl, hconverting⟩ := h
  obtain ⟨p, action⟩ := o
  -- only annotations that are inserted or replaced ask who gets parentheses
  cases action with
  | insert what index e =>
      cases what with
      | annotation =>
          simp only [Scene.write, insertElement, insertAnnotation, hconverting]
          rfl
      | _ => rfl
  | replaceNode e =>
      simp only [Scene.write, replaceNode, assignmentText, assignmentLevel, hconverting]
      rfl
  | _ => rfl

theorem Alike.writeAll (h : s.Alike s') (l : List Operation) :
    ∀ d, s.writeAll d l = s'.writeAll d l := by
  induction l with
  | nil => exact fun _ => rfl
  | cons o l ih =>
      intro d
      rw [Scene.writeAll, Scene.writeAll, h.write]
      exact bind_congr fun written => ih _

theorem Alike.finish (h : s.Alike s') (d : Draft) : s.finish d = s'.finish d := by
  obtain ⟨document, config, converting, replaced⟩ := s
  obtain ⟨document', config', converting', replaced'⟩ := s'
  obtain ⟨rfl, rfl, rfl, _⟩ := h
  rfl

/-! ## The scene of a batch of insertions -/

section Batches

variable {document : Document} {config : Configuration} {l l' : List Operation}

theorem mem_converting {unnecessary : Bool} :
    (p, unnecessary) ∈ (ofOperations document config l).converting ↔
      ⟨p, .convertToCompound unnecessary⟩ ∈ l := by
  rw [ofOperations, List.mem_filterMap]
  constructor
  · rintro ⟨⟨q, action⟩, hmem, heq⟩
    split at heq
    · next haction =>
      obtain ⟨rfl, rfl⟩ := Prod.mk.inj (Option.some.inj heq)
      obtain rfl : action = _ := haction
      exact hmem
    · cases heq
  · exact fun hmem => ⟨_, hmem, rfl⟩

/-- Where all parentheses are necessary, the marks say who gets them. -/
theorem isConverting_iff (h : ∀ m ∈ s.converting, m.2 = false) :
    s.isConverting p = true ↔ (p, false) ∈ s.converting := by
  rw [isConverting, Option.any_eq_true]
  constructor
  · rintro ⟨⟨q, unnecessary⟩, hfind, _⟩
    have hmem := List.mem_reverse.mp (List.mem_of_find?_eq_some hfind)
    obtain rfl : q = p :=
      beq_iff_eq.mp (List.find?_some (p := fun (m : Pointer × Bool) => m.1 == p) hfind)
    rw [← show unnecessary = false from h _ hmem]
    exact hmem
  · intro hmem
    cases hfind : s.converting.reverse.find? (·.1 == p) with
    | none =>
        have hno := List.find?_eq_none.mp hfind _ (List.mem_reverse.mpr hmem)
        exact absurd (beq_self_eq_true p) hno
    | some m =>
        refine ⟨m, rfl, ?_⟩
        rw [h m (List.mem_reverse.mp (List.mem_of_find?_eq_some hfind))]
        rfl

/-- What is carried out for insertions: insertions, and marks for single bare annotations. -/
def OnlyInserts (file : Syntax.File) (l : List Operation) : Prop :=
  ∀ o ∈ l, o.isInsert = true ∨
    o.action = .convertToCompound false ∧ isBareSingle file o.pointer = true

theorem onlyInserts_carriedOut (file : Syntax.File) (ho : o.Inserts) :
    OnlyInserts file (carriedOut file o) := by
  intro z hz
  have hinsert := (Batch.inserts_anchored file ho).isInsert
  rw [carriedOut] at hz
  split at hz
  · next hmark =>
    rcases List.mem_cons.mp hz with rfl | hz
    · exact Or.inl hinsert
    · rw [List.mem_singleton.mp hz]
      exact Or.inr ⟨rfl, (Bool.and_eq_true_iff.mp hmark).2⟩
  · rw [List.mem_singleton.mp hz]
    exact Or.inl hinsert

theorem OnlyInserts.append {file : Syntax.File} (h : OnlyInserts file l)
    (h' : OnlyInserts file l') : OnlyInserts file (l ++ l') :=
  List.forall_mem_append.mpr ⟨h, h'⟩

theorem OnlyInserts.necessary (h : OnlyInserts document.syntaxTree l) :
    ∀ m ∈ (ofOperations document config l).converting,
      m.2 = false ∧ isBareSingle document.syntaxTree m.1 = true := by
  rintro ⟨p, unnecessary⟩ hm
  rcases h _ (mem_converting.mp hm) with hinsert | ⟨haction, hbare⟩
  · cases hinsert
  · exact ⟨Action.convertToCompound.inj haction, hbare⟩

theorem OnlyInserts.ready (config : Configuration) (h : OnlyInserts document.syntaxTree l)
    (hs : (ofOperations document config l).Parsed) : (ofOperations document config l).Ready where
  parsed := hs
  converting := by
    intro p t hconverting ht
    have hmem := (isConverting_iff fun m hm => (h.necessary m hm).1).mp hconverting
    obtain ⟨t', ht', hbare⟩ := Batch.isBareSingle_iff.mp (h.necessary _ hmem).2
    obtain rfl := Node.target.inj (Option.some.inj (ht'.symm.trans ht))
    exact hbare
  replaced := by
    refine List.filterMap_eq_nil_iff.mpr fun o ho => ?_
    split
    · next haction =>
      rcases h o ho with hinsert | ⟨hmark, _⟩
      · rw [Operation.isInsert, haction] at hinsert
        cases hinsert
      · rw [haction] at hmark
        cases hmark
    · rfl

theorem OnlyInserts.alike (config : Configuration) (h : OnlyInserts document.syntaxTree l)
    (hs : (ofOperations document config l).Parsed) (hperm : l.Perm l') :
    (ofOperations document config l).Alike (ofOperations document config l') := by
  have h' : OnlyInserts document.syntaxTree l' := fun o ho => h o (hperm.mem_iff.mpr ho)
  refine ⟨rfl, rfl, (h.ready config hs).replaced.trans (h'.ready config hs).replaced.symm,
    funext fun p => ?_⟩
  rw [Bool.eq_iff_iff, isConverting_iff fun m hm => (h.necessary m hm).1,
    isConverting_iff fun m hm => (h'.necessary m hm).1, mem_converting, mem_converting,
    hperm.mem_iff]

end Batches

end Scene

/-! ## The text of two insertions -/

/-- Two insertions for different nodes that do not crowd each other have the same edits in either
order. -/
theorem synthesize_swap {document : Document} (config : Configuration) {a b : Operation}
    {uri text : String} {c : Configuration} (hparse : Document.parse uri text c = .ok document)
    (hlength : text.length < Text.wordBound) (ha : a.Inserts) (hb : b.Inserts)
    (hfits : ∀ o ∈ [a, b], o.Fits document.syntaxTree) (hne : a.pointer ≠ b.pointer)
    (hab : ¬ a.Crowds document.syntaxTree b)
    (hba : ¬ b.Crowds document.syntaxTree a) :
    synthesize document config [b, a] = synthesize document config [a, b] := by
  have hinserts := (Scene.onlyInserts_carriedOut document.syntaxTree ha).append
    (Scene.onlyInserts_carriedOut document.syntaxTree hb)
  have hs : ∀ l, (Scene.ofOperations document config l).Parsed :=
    fun _ => ⟨uri, text, c, hparse, hlength⟩
  have hseparate := Scene.separate (hinserts.ready config (hs _)) ha hb hfits hne hab hba
  have halike := hinserts.alike config (hs _) List.perm_append_comm
  simp only [synthesize, Batch.reduce_pair ha.isInsert hb.isInsert hne,
    Batch.reduce_pair hb.isInsert ha.isInsert hne.symm]
  rw [← halike.writeAll]
  refine Eq.trans (bind_congr fun d => (halike.finish d).symm) ?_
  exact (hseparate.finish hne).symm

namespace Writer

theorem add_eq_ok_iff {w w' : Writer} {o : Operation} :
    w.add o = .ok w' ↔ w.document.ghost = false ∧ ∃ converted,
      Conversion.convert ⟨w.document, w.config.aliases⟩ o = .ok converted ∧
        w' = ⟨w.document, w.config, w.changes ++ [converted]⟩ := by
  rw [add]
  cases hghost : w.document.ghost with
  | true =>
      constructor
      · intro h
        cases h
      · rintro ⟨h, _⟩
        cases h
  | false =>
      cases hconvert : Conversion.convert ⟨w.document, w.config.aliases⟩ o with
      | error e =>
          constructor
          · intro h
            cases h
          · rintro ⟨_, _, h, _⟩
            cases h
      | ok converted =>
          constructor
          · intro h
            exact ⟨rfl, converted, rfl, (Except.ok.inj h).symm⟩
          · rintro ⟨_, _, h, rfl⟩
            obtain rfl := Except.ok.inj h
            rfl

theorem addAll_cons_iff {w w' : Writer} {o : Operation} {l : List Operation} :
    w.addAll (o :: l) = .ok w' ↔ ∃ w₁, w.add o = .ok w₁ ∧ w₁.addAll l = .ok w' := by
  rw [addAll]
  cases hadd : w.add o with
  | error e =>
      constructor
      · intro h
        cases h
      · rintro ⟨_, h, _⟩
        cases h
  | ok w₁ =>
      constructor
      · exact fun h => ⟨w₁, rfl, h⟩
      · rintro ⟨_, h, hl⟩
        obtain rfl := Except.ok.inj h
        exact hl

theorem addAll_pair_iff {w w' : Writer} {a b : Operation} :
    w.addAll [a, b] = .ok w' ↔ w.document.ghost = false ∧ ∃ a' b',
      Conversion.convert ⟨w.document, w.config.aliases⟩ a = .ok a' ∧
      Conversion.convert ⟨w.document, w.config.aliases⟩ b = .ok b' ∧
      w' = ⟨w.document, w.config, w.changes ++ [a', b']⟩ := by
  simp only [addAll_cons_iff]
  constructor
  · rintro ⟨w₁, ha, w₂, hb, h⟩
    obtain ⟨hghost, a', ha', rfl⟩ := add_eq_ok_iff.mp ha
    obtain ⟨_, b', hb', rfl⟩ := add_eq_ok_iff.mp hb
    obtain rfl := Except.ok.inj h
    exact ⟨hghost, a', b', ha', hb', by rw [List.append_assoc]; rfl⟩
  · rintro ⟨hghost, a', b', ha', hb', rfl⟩
    refine ⟨_, add_eq_ok_iff.mpr ⟨hghost, a', ha', rfl⟩, _,
      add_eq_ok_iff.mpr ⟨hghost, b', hb', rfl⟩, ?_⟩
    rw [addAll, List.append_assoc]
    rfl

/-- The text of two insertions for different nodes does not depend on their order, unless one puts a
new member right behind the member without a value that the other one is for. -/
theorem editedText_swap {uri text : String} {c config : Configuration} {document : Document}
    {a b a' b' : Operation} {w : Writer} (hparse : Document.parse uri text c = .ok document)
    (hlength : text.length < Text.wordBound) (ha : a.isInsert = true) (hb : b.isInsert = true)
    (hadd : (ofDocument document config).addAll [a, b] = .ok w) (hchanges : w.changes = [a', b'])
    (hne : a'.pointer ≠ b'.pointer) (hab : ¬ a'.Crowds document.syntaxTree b')
    (hba : ¬ b'.Crowds document.syntaxTree a') :
    ∃ w', (ofDocument document config).addAll [b, a] = .ok w' ∧ w'.changes = [b', a'] ∧
      w'.editedText = w.editedText := by
  have hfits := (fits_of_addAll hadd fun _ h => absurd h List.not_mem_nil).2.2
  obtain ⟨hghost, a₁, b₁, hconvert, hconvert', rfl⟩ := addAll_pair_iff.mp hadd
  obtain ⟨rfl, rfl⟩ : a₁ = a' ∧ b₁ = b' := by
    injection hchanges with ha hrest
    exact ⟨ha, List.singleton_inj.mp hrest⟩
  refine ⟨_, addAll_pair_iff.mpr ⟨hghost, b₁, a₁, hconvert', hconvert, rfl⟩, rfl, ?_⟩
  have hswap := synthesize_swap config hparse hlength
    (Conversion.convert_inserts ha _ hconvert) (Conversion.convert_inserts hb _ hconvert') hfits hne
    hab hba
  exact congrArg (fun edits => edits >>= TextEdit.applyAll document.text) hswap

/-- A record with a property that has no value. -/
def valuelessText : String := "annotate E with @A : \x7b a \x7d;"

/-- A property in front of the one of `valuelessText`. -/
def frontProperty : Operation :=
  ⟨⟨["targets", "0", "terms", "0", "content", "0"]⟩, .insert .recordProperty (some 0)
    ⟨.propertyValue, [("Property", ⟨"Property", "b", none⟩)], [], none, none⟩⟩

/-- A value for the property of `valuelessText`. -/
def missingValue : Operation :=
  ⟨⟨["targets", "0", "terms", "0", "content", "0", "content", "0"]⟩, .insert .primitiveValue none
    ⟨.int, [], [.text ⟨"1", none⟩], none, none⟩⟩

/-- A value for a property and another property in front of it can be inserted in either order. -/
theorem editedText_swap_valueless :
    ∃ document w w', Document.parse "a.cds" valuelessText .default = .ok document ∧
      (ofDocument document .default).addAll [frontProperty, missingValue] = .ok w ∧
      (ofDocument document .default).addAll [missingValue, frontProperty] = .ok w' ∧
      w'.editedText = w.editedText := by
  have haccepted : ((Document.parse "a.cds" valuelessText .default).toOption.any fun document =>
      ((ofDocument document .default).addAll [frontProperty, missingValue]).toOption.any fun w =>
        w.changes.map (fun o => (o.pointer, o.index?)) =
            [(⟨["targets", "0", "assignments", "0", "value"]⟩, some 0),
              (⟨["targets", "0", "assignments", "0", "value", "properties", "0"]⟩, none)] &&
          (document.syntaxTree.resolve? ⟨["targets", "0", "assignments", "0", "value"]⟩).any
            fun n => n.memberRanges.length = 1) = true := by decide +kernel
  have hok : ∀ {ε α : Type} {x : Except ε α} {a : α}, x.toOption = some a → x = .ok a := by
    rintro ε α (e | a') a h
    · cases h
    · exact congrArg Except.ok (Option.some.inj h)
  obtain ⟨document, hparse, haccepted⟩ := (Option.any_eq_true _ _).mp haccepted
  obtain ⟨w, hadd, haccepted⟩ := (Option.any_eq_true _ _).mp haccepted
  obtain ⟨hchanges, hrecord⟩ := Bool.and_eq_true_iff.mp haccepted
  obtain ⟨list, hlist, hlength⟩ := (Option.any_eq_true _ _).mp hrecord
  obtain ⟨_, a, b, _, _, rfl⟩ := addAll_pair_iff.mp (hok hadd)
  obtain ⟨ha, hb⟩ := List.cons_eq_cons.mp (of_decide_eq_true hchanges)
  obtain ⟨hpointer, hindex⟩ := Prod.mk.inj ha
  obtain ⟨hpointer', _⟩ := Prod.mk.inj (List.singleton_inj.mp hb)
  have hne : a.pointer ≠ b.pointer := by
    rw [hpointer, hpointer']
    decide
  have hfront : ¬ a.Crowds document.syntaxTree b := by
    rintro ⟨list', _, _, i, hlist', _, _, _, hputs⟩
    rw [hpointer, hlist] at hlist'
    obtain rfl := Option.some.inj hlist'
    rw [PutsBehind, hindex] at hputs
    rcases hputs with hzero | ⟨hnone, _⟩
    · cases hzero
    · have hle := List.getElem?_eq_none_iff.mp hnone
      rw [of_decide_eq_true hlength] at hle
      exact absurd hle (by decide)
  have hbelow : ¬ b.Crowds document.syntaxTree a := by
    rintro ⟨_, _, _, _, _, _, happend, _⟩
    rw [hpointer, hpointer'] at happend
    exact absurd (show 5 = 9 from congrArg Pointer.depth happend) (by decide)
  obtain ⟨w', hadd', _, htext⟩ := editedText_swap (hok hparse) (by decide +kernel) rfl rfl
    (hok hadd) rfl hne hfront hbelow
  exact ⟨document, _, w', hok hparse, hok hadd, hadd', htext⟩

end Writer

end AnnotationEdit

import AnnotationEdit.Proofs.Syntax.Growing
import AnnotationEdit.Proofs.Syntax.Surviving

/-!
# Lists with other members

The members of a record, a collection or the items of a group stand between two brackets. Whatever
else is written there as members of such a list, the file with it is the old one with a list of the
new members in that place (`Document.exists_list`).
-/

namespace AnnotationEdit

namespace Syntax

namespace Node

variable {vocabulary : Vocabulary} {parent n m : Node} {ts : List Token}

def isBracketed : Node → Bool
  | record _ | collection _ | groupItems _ => true
  | _ => false

def isList (n : Node) : Bool := n.memberRanges?.isSome

theorem isList_of_isBracketed (h : n.isBracketed = true) : n.isList = true := by
  cases n with
  | record r => rfl
  | collection c => rfl
  | groupItems i => rfl
  | _ => cases h

/-- The marks around the members of a list, of a target around those in parentheses. -/
def brackets : Node → String × String
  | target _ => ("(", ")")
  | collection _ => ("[", "]")
  | _ => (Token.openBrace, Token.closeBrace)

/-- The members of a list. -/
def members (n : Node) : List Node := n.children.map (·.2)

/-- The list with other members; what is no member of such a list is left out. -/
def withMembers (n : Node) (ms : List Node) : Node :=
  match n with
  | target t => target { t with assignments := ms.filterMap assignment? }
  | record r => record ⟨r.range, ms.filterMap entry?⟩
  | collection c => collection ⟨c.range, ms.filterMap value?⟩
  | groupItems i => groupItems ⟨i.range, ms.filterMap item?⟩
  | n => n

/-- The tokens write a member of the list. -/
def Lists (n m : Node) (ts : List Token) : Prop :=
  match n with
  | target _ => ∃ a, m = ofAssignment a ∧ a.WrittenAs .standard none ts
  | record _ => ∃ e, m = ofEntry e ∧ e.WrittenAs ts
  | collection _ => ∃ v, m = ofValue v ∧ v.WrittenAs ts
  | groupItems _ => ∃ a, m = annotation a ∧ a.WrittenAs ts ∧ a.atSign = none
  | _ => False

theorem members_eq_of_numbered {name : String} {nodes : List Node}
    (h : n.children = numbered name nodes) : n.members = nodes := by
  rw [members, h, map_snd_numbered]

theorem exists_numbered_members (h : n.isList = true) :
    ∃ name, n.children = numbered name n.members ∧
      n.memberRanges = n.members.map Node.range := by
  have hnumbered : ∀ {α : Type} {name : String} {node : α → Node} {range : α → Range}
      {es : List α}, n.children = numbered name (es.map node) → n.memberRanges = es.map range →
      (∀ e, (node e).range = range e) → n.children = numbered name n.members ∧
        n.memberRanges = n.members.map Node.range := by
    intro α name node range es hchildren hranges hrange
    rw [members_eq_of_numbered hchildren, hranges, List.map_map]
    exact ⟨hchildren, List.map_congr_left fun e _ => (hrange e).symm⟩
  cases n with
  | target t => exact ⟨_, hnumbered rfl rfl fun a => by cases a <;> rfl⟩
  | record r => exact ⟨_, hnumbered rfl rfl fun e => by cases e <;> rfl⟩
  | collection c => exact ⟨_, hnumbered rfl rfl fun v => by cases v <;> rfl⟩
  | groupItems i => exact ⟨_, hnumbered rfl rfl fun _ => rfl⟩
  | _ => cases h

theorem written_lists (n : Node) : Members.Written Node.range n.Lists where
  spans m us h := by
    cases n with
    | target t =>
        obtain ⟨a, rfl, ha⟩ := h
        cases a <;> exact spans_assignment ha
    | record r =>
        obtain ⟨e, rfl, he⟩ := h
        cases e <;> exact spans_entry he
    | collection c =>
        obtain ⟨v, rfl, hv⟩ := h
        cases v <;> exact spans_value hv
    | groupItems i =>
        obtain ⟨a, rfl, ha, _⟩ := h
        exact ha.spans
    | _ => cases h
  tame m us h := by
    cases n with
    | target t =>
        obtain ⟨a, rfl, ha⟩ := h
        exact ha.tame
    | record r =>
        obtain ⟨e, rfl, he⟩ := h
        exact he.tame
    | collection c =>
        obtain ⟨v, rfl, hv⟩ := h
        exact hv.tame
    | groupItems i =>
        obtain ⟨a, rfl, ha, _⟩ := h
        exact ha.tame
    | _ => cases h

end Node

/-- Members of a kind as nodes. -/
theorem commaSeparated_map {α β : Type} {written : α → List Token → Prop}
    {written' : β → List Token → Prop} {f : α → β}
    (h : ∀ e us, written e us → written' (f e) us) : ∀ {es : List α} {ts : List Token},
      commaSeparated written es ts → commaSeparated written' (es.map f) ts
  | [], _, hts => hts
  | e :: es, ts, hts => by
      rcases hts with ⟨he, rfl⟩ | ⟨us, comma, vs, rfl, he, hcomma, hes⟩
      · exact Or.inl ⟨h e ts he, rfl⟩
      · exact Or.inr ⟨us, comma, vs, rfl, h e us he, hcomma, commaSeparated_map h hes⟩

theorem commaSeparated_map_iff {α β : Type} {written : β → List Token → Prop} {f : α → β} :
    ∀ {es : List α} {ts : List Token}, commaSeparated written (es.map f) ts ↔
      commaSeparated (fun e us => written (f e) us) es ts
  | [], _ => Iff.rfl
  | e :: es, ts => by
      rw [List.map_cons, commaSeparated, commaSeparated, List.map_eq_nil_iff]
      simp only [commaSeparated_map_iff]

/-- The tokens, without their roles, are those of something that is written. -/
def Plain {α : Type} (written : α → List Token → Prop) (e : α) (us : List Token) : Prop :=
  ∃ ts, written e ts ∧ us = ts.map Token.plain

/-- The tokens look like those of something that is written. -/
def Spelled {α : Type} (written : α → List Token → Prop) (e : α) (us : List Token) : Prop :=
  ∃ ts, written e ts ∧ Respells us (ts.map Token.plain)

theorem isMark_plain {t : Token} {mark : String} (h : t.IsMark mark) : t.plain = t := by
  obtain ⟨kind, text, range, role⟩ := t
  obtain rfl : role = none := h.2
  rfl

theorem spans_plain {us : List Token} {r : Range} (h : Spans us r) : Spans (us.map Token.plain) r := by
  obtain ⟨t, u, hhead, hlast, hrange⟩ := h
  refine ⟨t.plain, u.plain, ?_, ?_, hrange⟩
  · rw [List.head?_map, hhead]
    rfl
  · rw [List.getLast?_map, hlast]
    rfl

theorem commaEnded_plain {α : Type} {written : α → List Token → Prop} :
    ∀ {es : List α} {ts : List Token}, commaEnded written es ts →
      commaEnded (Plain written) es (ts.map Token.plain)
  | [], _, h => by
      rw [commaEnded] at h
      rw [h]
      rfl
  | e :: es, _, h => by
      obtain ⟨us, comma, vs, rfl, he, hcomma, hes⟩ := h
      refine ⟨us.map Token.plain, comma, vs.map Token.plain, ?_, ⟨us, he, rfl⟩, hcomma,
        commaEnded_plain hes⟩
      rw [List.map_append, List.map_cons, isMark_plain hcomma]

/-- Tokens that look like members of a list look like a list of these. -/
theorem exists_of_spelled {α : Type} {written : α → List Token → Prop} :
    ∀ {es : List α} {us : List Token}, commaSeparated (Spelled written) es us →
      ∃ ts, commaSeparated written es ts ∧ Respells us (ts.map Token.plain)
  | [], us, h => by
      rw [commaSeparated] at h
      rw [h]
      exact ⟨[], rfl, rfl⟩
  | e :: es, us, h => by
      rcases h with ⟨⟨ts, he, hts⟩, rfl⟩ | ⟨us, comma, vs, rfl, ⟨ts, he, hts⟩, hcomma, hes⟩
      · exact ⟨ts, Or.inl ⟨he, rfl⟩, hts⟩
      · obtain ⟨ws, hws, hvs⟩ := exists_of_spelled hes
        refine ⟨ts ++ comma :: ws, Or.inr ⟨ts, comma, ws, rfl, he, hcomma, hws⟩, ?_⟩
        rw [Respells] at hts hvs ⊢
        rw [List.map_append, List.map_append, List.map_append, List.map_cons, List.map_cons,
          List.map_cons, hts, hvs, isMark_plain hcomma]

/-- Nodes that are written as members of a kind. -/
theorem exists_of_commaSeparated {α β : Type} {written : α → List Token → Prop}
    {written' : β → List Token → Prop} {f : α → β}
    (h : ∀ m us, written' m us → ∃ e, m = f e ∧ written e us) :
    ∀ {ms : List β} {ts : List Token}, commaSeparated written' ms ts →
      ∃ es : List α, ms = es.map f ∧ commaSeparated written es ts
  | [], _, hts => ⟨[], rfl, hts⟩
  | m :: ms, ts, hts => by
      rcases hts with ⟨hm, rfl⟩ | ⟨us, comma, vs, rfl, hm, hcomma, hms⟩
      · obtain ⟨e, rfl, he⟩ := h m ts hm
        exact ⟨[e], rfl, Or.inl ⟨he, rfl⟩⟩
      · obtain ⟨e, rfl, he⟩ := h m us hm
        obtain ⟨es, rfl, hes⟩ := exists_of_commaSeparated h hms
        exact ⟨e :: es, rfl, Or.inr ⟨us, comma, vs, rfl, he, hcomma, hes⟩⟩

/-- The members of a list between its brackets. -/
structure Bracketed (n : Node) (opening closing : Token) (us : List Token) : Prop where
  first : opening.IsMark n.brackets.1
  final : closing.IsMark n.brackets.2
  range : n.isBracketed = true → n.range = ⟨opening.range.start, closing.range.stop⟩
  listed : commaSeparated n.Lists n.members us

namespace Node

variable {vocabulary : Vocabulary} {parent n m : Node} {ts : List Token}

theorem filterMap_part? {α : Type} {node : α → Node} {part? : Node → Option α} {content : α → α}
    (h : Wraps node part? content) (es : List α) : (es.map node).filterMap part? = es := by
  rw [List.filterMap_map]
  exact (List.filterMap_congr fun e _ => h.part?_node e).trans (List.filterMap_some ..)

def dropMembers (n : Node) (k : Nat) : Node := n.withMembers (n.members.drop k)

theorem members_dropMembers (h : n.isList = true) (k : Nat) :
    (n.dropMembers k).members = n.members.drop k := by
  have hparts : ∀ {α : Type} {node : α → Node} {part? : Node → Option α} {content : α → α},
      Wraps node part? content → ∀ es : List α,
        (((es.map node).drop k).filterMap part?).map node = (es.map node).drop k := by
    intro α node part? content hwraps es
    rw [← List.map_drop, filterMap_part? hwraps]
  have hall : ∀ {name : String} {nodes : List Node}, (n.dropMembers k).children = numbered name nodes →
      n.members.drop k = nodes → (n.dropMembers k).members = n.members.drop k := by
    intro name nodes hchildren hnodes
    rw [members_eq_of_numbered hchildren, hnodes]
  cases n with
  | target t =>
      have hmembers : (target t).members = t.assignments.map ofAssignment :=
        members_eq_of_numbered rfl
      refine hall rfl ?_
      rw [hmembers, hparts wraps_assignment]
  | record r =>
      have hmembers : (record r).members = r.entries.map ofEntry := members_eq_of_numbered rfl
      refine hall rfl ?_
      rw [hmembers, hparts wraps_entry]
  | collection c =>
      have hmembers : (collection c).members = c.items.map ofValue := members_eq_of_numbered rfl
      refine hall rfl ?_
      rw [hmembers, hparts wraps_value]
  | groupItems i =>
      have hmembers : (groupItems i).members = i.items.map annotation := members_eq_of_numbered rfl
      refine hall rfl ?_
      rw [hmembers, hparts wraps_annotation]
  | _ => cases h

theorem dropMembers_zero (h : n.isBracketed = true) : n.dropMembers 0 = n := by
  have hparts : ∀ {α : Type} {node : α → Node} {part? : Node → Option α} {content : α → α},
      Wraps node part? content → ∀ es : List α, n.members = es.map node →
        (n.members.drop 0).filterMap part? = es := by
    intro α node part? content hwraps es hes
    rw [hes, List.drop_zero, filterMap_part? hwraps]
  cases n with
  | record r =>
      obtain ⟨range, entries⟩ := r
      have hentries := hparts wraps_entry entries (members_eq_of_numbered rfl)
      exact congrArg (fun es => record ⟨range, es⟩) hentries
  | collection c =>
      obtain ⟨range, items⟩ := c
      have hitems := hparts wraps_value items (members_eq_of_numbered rfl)
      exact congrArg (fun vs => collection ⟨range, vs⟩) hitems
  | groupItems i =>
      have hitems := hparts wraps_annotation i.items (members_eq_of_numbered rfl)
      exact congrArg (fun as => groupItems ⟨i.range, as⟩) hitems
  | _ => cases h

theorem lists_dropMembers (n : Node) (k : Nat) : (n.dropMembers k).Lists = n.Lists := by
  cases n <;> rfl

/-- The members of a list stand between its brackets, and others may stand between such brackets in
the place of the list. -/
theorem Admits.exists_bracketed (h : parent.Admits vocabulary n ts) (hlist : n.isBracketed = true) :
    ∃ opening closing us, ts = opening :: (us ++ [closing]) ∧ Bracketed n opening closing us ∧
      ∀ first final ms vs, first.IsMark n.brackets.1 → final.IsMark n.brackets.2 →
        commaSeparated n.Lists ms vs → ∃ k,
          parent.Admits vocabulary k (first :: (vs ++ [final])) ∧
            k.content = (n.withMembers ms).content := by
  cases n with
  | record r =>
      obtain ⟨range, entries⟩ := r
      obtain ⟨hv, hreplace⟩ := Admits.value (v := .record ⟨range, entries⟩) h
      rw [Value.WrittenAs] at hv
      obtain ⟨opening, closing, us, rfl, ho, hc, rfl, hentries⟩ := hv
      rw [entriesWrittenAs_iff] at hentries
      have hmembers : (record ⟨⟨opening.range.start, closing.range.stop⟩, entries⟩).members =
          entries.map ofEntry := members_eq_of_numbered rfl
      refine ⟨opening, closing, us, rfl, ⟨ho, hc, fun _ => rfl, ?_⟩, ?_⟩
      · rw [hmembers]
        exact commaSeparated_map (fun e us he => ⟨e, rfl, he⟩) hentries
      · intro first final ms vs hfirst hfinal hms
        obtain ⟨es, rfl, hes⟩ := exists_of_commaSeparated (fun m us hm => hm) hms
        have hwritten : Value.WrittenAs (.record ⟨⟨first.range.start, final.range.stop⟩, es⟩)
            (first :: (vs ++ [final])) := by
          rw [Value.WrittenAs]
          exact ⟨first, final, vs, rfl, hfirst, hfinal, rfl, (entriesWrittenAs_iff es vs).mpr hes⟩
        refine ⟨_, hreplace _ _ hwritten fun a _ htakes => ?_, ?_⟩
        · exact htakes.of_kind fun r _ => ⟨_, rfl⟩
        · rw [withMembers, filterMap_part? wraps_entry]
          rfl
  | collection c =>
      obtain ⟨range, items⟩ := c
      obtain ⟨hv, hreplace⟩ := Admits.value (v := .collection ⟨range, items⟩) h
      rw [Value.WrittenAs] at hv
      obtain ⟨opening, closing, us, rfl, ho, hc, rfl, hitems⟩ := hv
      rw [valuesWrittenAs_iff] at hitems
      have hmembers : (collection ⟨⟨opening.range.start, closing.range.stop⟩, items⟩).members =
          items.map ofValue := members_eq_of_numbered rfl
      refine ⟨opening, closing, us, rfl, ⟨ho, hc, fun _ => rfl, ?_⟩, ?_⟩
      · rw [hmembers]
        exact commaSeparated_map (fun v us hv => ⟨v, rfl, hv⟩) hitems
      · intro first final ms vs hfirst hfinal hms
        obtain ⟨es, rfl, hes⟩ := exists_of_commaSeparated (fun m us hm => hm) hms
        have hwritten : Value.WrittenAs
            (.collection ⟨⟨first.range.start, final.range.stop⟩, es⟩) (first :: (vs ++ [final])) := by
          rw [Value.WrittenAs]
          exact ⟨first, final, vs, rfl, hfirst, hfinal, rfl, (valuesWrittenAs_iff es vs).mpr hes⟩
        refine ⟨_, hreplace _ _ hwritten fun a _ _ => ?_, ?_⟩
        · exact fun r hr => by cases hr
        · rw [withMembers, filterMap_part? wraps_value]
          rfl
  | groupItems i =>
      obtain ⟨range, items⟩ := i
      obtain ⟨⟨opening, us, closing, rfl, ho, hc, rfl, hitems⟩, hreplace⟩ := h.groupItems
      have hmembers : (Node.groupItems ⟨⟨opening.range.start, closing.range.stop⟩, items⟩).members =
          items.map annotation := members_eq_of_numbered rfl
      refine ⟨opening, closing, us, rfl, ⟨ho, hc, fun _ => rfl, ?_⟩, ?_⟩
      · rw [hmembers]
        exact commaSeparated_map (fun a us ha => ⟨a, rfl, ha⟩) hitems
      · intro first final ms vs hfirst hfinal hms
        obtain ⟨es, rfl, hes⟩ := exists_of_commaSeparated (fun m us hm => hm) hms
        have hwritten : GroupItems.WrittenAs ⟨⟨first.range.start, final.range.stop⟩, es⟩
            (first :: (vs ++ [final])) := ⟨first, vs, final, rfl, hfirst, hfinal, rfl, hes⟩
        refine ⟨_, hreplace _ _ hwritten, ?_⟩
        rw [withMembers, filterMap_part? wraps_annotation]
        rfl
  | _ => cases hlist

end Node

end Syntax

namespace Syntax

/-- The members of a list of which some go, with others in front of those that stay and behind all
of them. -/
def Node.refilled (ms : List Node) (gone : Nat → Bool) (added : Nat → List Node) (fs : List Node) :
    List Node :=
  ((ms.zipIdx.filter fun p => !gone p.2).flatMap fun p => added p.2 ++ [p.1]) ++ fs

/-- The first members are left as they are. -/
theorem Node.refilled_append {front back fs : List Node} {gone : Nat → Bool}
    {added : Nat → List Node} (h : ∀ i < front.length, gone i = false ∧ added i = []) :
    refilled (front ++ back) gone added fs = front ++ refilled back
      (fun i => gone (front.length + i)) (fun i => added (front.length + i)) fs := by
  have hfront : ((front.zipIdx.filter fun p => !gone p.2).flatMap fun p => added p.2 ++ [p.1]) =
      front := by
    have hindex : ∀ p ∈ front.zipIdx, p.2 < front.length := fun p hp =>
      (List.getElem?_eq_some_iff.mp (List.mem_zipIdx_iff_getElem?.mp hp)).1
    have hall : (front.zipIdx.filter fun p => !gone p.2) = front.zipIdx :=
      List.filter_eq_self.mpr fun p hp => by rw [(h p.2 (hindex p hp)).1, Bool.not_false]
    rw [hall]
    refine (List.flatMap_congr fun p hp => ?_).trans
      (List.map_eq_flatMap.symm.trans (List.zipIdx_map_fst 0 front))
    rw [(h p.2 (hindex p hp)).2, List.nil_append]
  have hback : back.zipIdx front.length = back.zipIdx.map fun p => (p.1, front.length + p.2) :=
    List.zipIdx_eq_map_add
  rw [refilled, refilled, List.zipIdx_append, Nat.zero_add, List.filter_append, List.flatMap_append,
    hfront, hback, List.filter_map, List.flatMap_map, List.append_assoc]
  rfl

variable {n : Node} {opening closing : Token} {front us back code : List Token} {N : Nat}
  {flagged cut : Token → Bool} {gone : Nat → Bool} {added : Nat → List Node} {fs : List Node}
  {puts : List Put} {x : Position}

theorem Node.brackets_cases (n : Node) : n.brackets = ("(", ")") ∨ n.brackets = ("[", "]") ∨
    n.brackets = (Token.openBrace, Token.closeBrace) := by
  cases n with
  | target t => exact Or.inl rfl
  | collection c => exact Or.inr (Or.inl rfl)
  | _ => exact Or.inr (Or.inr rfl)

theorem Bracketed.isCloser (h : Bracketed n opening closing us) : closing.isCloser = true := by
  have hfinal := h.final.1
  rw [Token.isCloser]
  rcases n.brackets_cases with heq | heq | heq <;> rw [heq] at hfinal
  · rw [hfinal, Bool.true_or, Bool.true_or]
  · rw [hfinal, Bool.or_true, Bool.true_or]
  · rw [hfinal, Bool.or_true]

theorem Bracketed.closing_not_comma (h : Bracketed n opening closing us) :
    closing.is "," = false := by
  refine not_comma_of_isMark h.final ?_
  rcases n.brackets_cases with heq | heq | heq <;> rw [heq] <;> decide

theorem Bracketed.opens (h : Bracketed n opening closing us) :
    opening.kind = .punctuation ∧ opening.is "," = false := by
  refine ⟨Token.kind_of_is h.first.1, not_comma_of_isMark h.first ?_⟩
  rcases n.brackets_cases with heq | heq | heq <;> rw [heq] <;> decide

/-- Around the members of a list everything is kept. -/
theorem Bracketed.kept_eq (h : Bracketed n opening closing us)
    (hcode : code = front ++ opening :: (us ++ closing :: back)) (htame : Tame code)
    (hcuts : CutsMembers flagged cut code) (hfront : ∀ t ∈ front ++ [opening], flagged t = false)
    (hback : ∀ t ∈ closing :: back, flagged t = false) :
    kept cut code = (front ++ [opening]) ++ (kept cut us ++ closing :: back) := by
  have hclosing := h.closing_not_comma
  have hsplit : code = (front ++ [opening]) ++ (us ++ closing :: back) := by
    rw [hcode, List.append_assoc, List.singleton_append]
  have hchain := htame.chain
  have hstart : kept cut (front ++ [opening]) = front ++ [opening] := by
    refine hcuts.kept_eq_of_tame ⟨[], us ++ closing :: back, hsplit⟩ ⟨?_, ?_, ?_⟩ hfront
    · intro t ht
      refine htame.head t ?_
      rw [hsplit, List.head?_append_of_ne_nil _ (by simp)]
      exact ht
    · intro t ht
      rw [List.getLast?_concat] at ht
      rw [← Option.some.inj ht]
      exact h.opens.2
    · rw [hsplit] at hchain
      exact hchain.left_of_append
  have hend : kept cut (closing :: back) = closing :: back := by
    refine hcuts.kept_eq_of_tame ⟨front ++ opening :: us, [], ?_⟩ ⟨?_, ?_, ?_⟩ hback
    · rw [hcode]
      simp only [List.append_assoc, List.cons_append, List.append_nil]
    · intro t ht
      rw [← Option.some.inj ht]
      exact hclosing
    · intro t ht
      refine htame.last t ?_
      rw [hsplit, ← List.append_assoc, List.getLast?_append_of_ne_nil _ (List.cons_ne_nil _ _)]
      exact ht
    · rw [hsplit, ← List.append_assoc] at hchain
      exact hchain.right_of_append
  rw [hsplit, @kept_append cut (front ++ [opening]), hstart, kept_append, hend]

/-- The members with their numbers, as the list writes them. -/
def Node.Numbers (n : Node) (p : Node × Nat) (us : List Token) : Prop := n.Lists p.1 us

theorem Node.written_numbers (n : Node) :
    Members.Written (fun p : Node × Nat => p.1.range) n.Numbers :=
  ⟨fun p us hp => (written_lists n).spans p.1 us hp,
    fun p us hp => (written_lists n).tame p.1 us hp⟩

/-- The members that stay, with their numbers. -/
def Node.staying (n : Node) (gone : Nat → Bool) : List (Node × Nat) :=
  n.members.zipIdx.filter fun p => !gone p.2

theorem Node.mem_staying {p : Node × Nat} :
    p ∈ n.staying gone ↔ n.members[p.2]? = some p.1 ∧ gone p.2 = false := by
  rw [staying, List.mem_filter, Bool.not_eq_true']
  exact and_congr_left fun _ => List.mk_mem_zipIdx_iff_getElem?

section

variable (h : Bracketed n opening closing us)
  (hcode : code = front ++ opening :: (us ++ closing :: back))

include h

theorem Bracketed.numbered : commaSeparated n.Numbers n.members.zipIdx us := by
  have hlisted : commaSeparated n.Lists (n.members.zipIdx.map (·.1)) us := by
    rw [List.zipIdx_map_fst]
    exact h.listed
  exact (@commaSeparated_map_iff _ _ n.Lists Prod.fst _ us).mp hlisted

variable (htame : Tame code) (hordered : Token.Ordered N code) (hcuts : CutsMembers flagged cut code)
  (hmarks : Marks flagged (fun p => gone p.2) (fun p => p.1.range) n.members.zipIdx code)

include hcode htame hordered hcuts hmarks

/-- What is kept of a list: members with commas behind them, if the list ends in a comma, and else
members of which the last one has none. -/
theorem Bracketed.kept_cases :
    kept cut code = (front ++ [opening]) ++ (kept cut us ++ closing :: back) ∧
      ((∀ t ∈ us.getLast?, t.is "," = true) ∧
          commaEnded n.Numbers (n.staying gone) (kept cut us) ∨
        (∃ t ∈ us.getLast?, t.is "," = false) ∧
          (n.staying gone = [] ∧ kept cut us = [] ∨
            ∃ es' e us' vs', n.staying gone = es' ++ [e] ∧ kept cut us = us' ++ vs' ∧
              commaEnded n.Numbers es' us' ∧ n.Numbers e vs')) := by
  have hclosing := h.closing_not_comma
  have hw := n.written_numbers
  have hsplit : code = (front ++ [opening]) ++ (us ++ closing :: back) := by
    rw [hcode, List.append_assoc, List.singleton_append]
  have hwithin := hw.within h.numbered
  rw [hsplit] at hordered hmarks
  obtain ⟨hfront, hmarks⟩ := hmarks.skip hordered fun p hp => by
    obtain ⟨ws, hws, hspan⟩ := hwithin p hp
    exact ⟨ws, hws.trans (List.sublist_append_left us _), hspan⟩
  have hrest := hordered.sublist (List.sublist_append_right (front ++ [opening]) _)
  obtain ⟨hmarks, hback⟩ := hmarks.drop hrest hwithin
  have hstays := hback closing List.mem_cons_self
  have hinner := hrest.sublist (List.sublist_append_left us (closing :: back))
  have hstands : Stands (us ++ [closing]) code :=
    ⟨front ++ [opening], back, by rw [hsplit, List.append_assoc us, List.singleton_append]⟩
  refine ⟨h.kept_eq hcode htame hcuts hfront hback, ?_⟩
  rcases commaSeparated_cases h.numbered with hcommas | ⟨es, last, us', vs', hes, rfl, hes', hlast⟩
  · exact Or.inl ⟨comma_of_commaEnded hcommas,
      hw.kept_commaEnded hcuts hclosing hstays hcommas hinner hstands hmarks⟩
  · have hne := (hw.spans last vs' hlast).ne_nil
    refine Or.inr ⟨?_, ?_⟩
    · rw [List.getLast?_append_of_ne_nil _ hne, List.getLast?_eq_some_getLast hne]
      exact ⟨_, rfl, (hw.tame last vs' hlast).last _ (List.getLast?_eq_some_getLast hne)⟩
    · rw [Node.staying, hes]
      rw [hes] at hmarks
      refine (hw.kept_cases hcuts hclosing h.isCloser hstays hes' hlast hinner
        (by rwa [List.append_assoc] at hstands) hmarks).imp_left fun hnone => ⟨hnone.1, hnone.2.1⟩

theorem Bracketed.exists_kept_mark {p : Node × Nat} (hp : p ∈ n.staying gone) :
    ∃ front' mark u back', kept cut code = front' ++ mark :: u :: back' ∧
      mark.kind = .punctuation ∧ p.1.range.start = u.range.start := by
  obtain ⟨hkept, hcases⟩ := h.kept_cases hcode htame hordered hcuts hmarks
  have hseparated : commaSeparated n.Numbers (n.staying gone) (kept cut us) := by
    rcases hcases with ⟨_, hcommas⟩ | ⟨_, ⟨hnone, hnil⟩ | ⟨es', e, us', vs', hes, hus, hes', he⟩⟩
    · exact commaSeparated_of_commaEnded hcommas
    · rw [hnone, hnil]
      rfl
    · rw [hes, hus]
      exact commaSeparated_append (commaSeparated_singleton he) hes'
  obtain ⟨front', mark, u, back', heq, hmark, hstart⟩ :=
    exists_mark n.written_numbers.spans h.opens.1 hseparated p hp
  refine ⟨front ++ front', mark, u, back' ++ closing :: back, ?_, hmark, hstart⟩
  rw [hkept, List.append_assoc, ← List.append_assoc [opening], List.singleton_append, heq]
  simp only [List.append_assoc, List.cons_append]

/-- Texts for members are put in in front of members that stay and behind them: what is kept of the
list, with these texts between it, writes the list of all these members. -/
theorem Bracketed.exists_refilled (hsorted : puts.Pairwise fun p q => p.place ≤ q.place)
    (hstart : opening.range.stop ≤ x) (hstops : ∀ t ∈ kept cut us, t.range.stop ≤ x)
    (hplaces : ∀ p ∈ puts,
      (∃ i m, n.members[i]? = some m ∧ gone i = false ∧ p.place = m.range.start) ∨
        x ≤ p.place ∧ p.place ≤ closing.range.start)
    (hadded : ∀ i m, n.members[i]? = some m → gone i = false → commaEnded (Spelled n.Lists) (added i)
      ((puts.filter fun p => decide (p.place = m.range.start)).flatMap Put.code))
    (hended : (∀ t ∈ us.getLast?, t.is "," = true) → commaEnded (Spelled n.Lists) fs
      ((puts.filter fun p => decide (x ≤ p.place)).flatMap Put.code))
    (hopen : (∃ t ∈ us.getLast?, t.is "," = false) →
      n.staying gone ≠ [] ∧ commaLed (Spelled n.Lists) fs
        ((puts.filter fun p => decide (x ≤ p.place)).flatMap Put.code)) :
    ∃ vs, commaSeparated n.Lists (Node.refilled n.members gone added fs) vs ∧
      Respells (weave (fun _ => true) puts ((kept cut code).map Token.plain))
        ((front ++ opening :: (vs ++ closing :: back)).map Token.plain) := by
  have hw := n.written_numbers
  have hwithin := hw.within h.numbered
  obtain ⟨hkept, hcases⟩ := h.kept_cases hcode htame hordered hcuts hmarks
  have hlast : (commaEnded (Plain n.Numbers) (n.staying gone) ((kept cut us).map Token.plain) ∧
        commaEnded (Spelled n.Lists) fs
          ((puts.filter fun p => decide (x ≤ p.place)).flatMap Put.code)) ∨
      ∃ es' e us' vs', n.staying gone = es' ++ [e] ∧
        (kept cut us).map Token.plain = us' ++ vs' ∧
        commaEnded (Plain n.Numbers) es' us' ∧ Plain n.Numbers e vs' ∧
        commaLed (Spelled n.Lists) fs
          ((puts.filter fun p => decide (x ≤ p.place)).flatMap Put.code) := by
    rcases hcases with ⟨hcomma, hcommas⟩ | ⟨hnot, hcases⟩
    · exact Or.inl ⟨commaEnded_plain hcommas, hended hcomma⟩
    · obtain ⟨hsome, hfs⟩ := hopen hnot
      obtain ⟨es', e, us', vs', hes, hus, hes', he⟩ :=
        hcases.resolve_left fun hnone => hsome hnone.1
      refine Or.inr ⟨es', e, us'.map Token.plain, vs'.map Token.plain, hes, ?_,
        commaEnded_plain hes', ⟨vs', he, rfl⟩, hfs⟩
      rw [hus, List.map_append]
  have hsplit : code = (front ++ [opening]) ++ (us ++ closing :: back) := by
    rw [hcode, List.append_assoc, List.singleton_append]
  rw [hsplit] at hordered
  have hapart := List.pairwise_append.mp hordered.apart
  have hopening := hordered.proper opening (List.mem_append_left _ List.mem_concat_self)
  have hbehind : ∀ p ∈ puts, ∀ t ∈ (front ++ [opening]).map Token.plain,
      t.range.start < p.place := by
    refine fun p hp => List.forall_mem_map.mpr fun t ht => ?_
    refine lt_of_lt_of_le (hordered.proper t (List.mem_append_left _ ht)) ?_
    rcases hplaces p hp with ⟨i, m, hm, _, heq⟩ | ⟨hle, _⟩
    · obtain ⟨ws, hws, hspan⟩ := hwithin (m, i) (List.mk_mem_zipIdx_iff_getElem?.mpr hm)
      obtain ⟨u, hu, hustart⟩ := hspan.exists_mem.1
      rw [heq, hustart]
      exact hapart.2.2 t ht u (List.mem_append_left _ (hws.subset hu))
    · refine le_trans ?_ (hstart.trans hle)
      rcases List.mem_append.mp ht with ht | ht
      · exact ((List.pairwise_append.mp hapart.1).2.2 t ht opening
          (List.mem_singleton_self _)).trans (le_of_lt hopening)
      · rw [List.mem_singleton.mp ht]
  have hrest := hordered.sublist (List.sublist_append_right (front ++ [opening]) _)
  have hwhere : ∀ p ∈ puts, (∃ e ∈ n.staying gone, p.place = e.1.range.start) ∨
      x ≤ p.place ∧ ∀ t ∈ (closing :: back).map Token.plain, p.place ≤ t.range.start := by
    intro p hp
    rcases hplaces p hp with ⟨i, m, hm, hgone, heq⟩ | ⟨hle, hclose⟩
    · exact Or.inl ⟨(m, i), Node.mem_staying.mpr ⟨hm, hgone⟩, heq⟩
    · refine Or.inr ⟨hle, List.forall_mem_map.mpr fun t ht => hclose.trans ?_⟩
      rcases List.mem_cons.mp ht with rfl | ht
      · exact le_refl _
      · have hbefore := (List.pairwise_cons.mp (List.pairwise_append.mp hrest.apart).2.1).1 t ht
        exact (le_of_lt (hrest.proper closing (List.mem_append_right _ List.mem_cons_self))).trans
          hbefore
  have hmapped : (kept cut code).map Token.plain = (front ++ [opening]).map Token.plain ++
      ((kept cut us).map Token.plain ++ (closing :: back).map Token.plain) := by
    rw [hkept, List.map_append, @List.map_append _ _ _ (kept cut us)]
  have hsub : (kept cut code).Sublist code := List.filter_sublist
  rw [← hsplit] at hordered
  have horderedKept : Token.Ordered N ((kept cut code).map Token.plain) :=
    Token.ordered_of_map_range (by rw [List.map_map]; rfl) (hordered.sublist hsub)
  rw [hmapped] at horderedKept ⊢
  obtain ⟨ts', hts', hweave⟩ := @weave_list _ _ (Plain n.Numbers) (Spelled n.Lists)
    (fun p => p.1.range) Prod.fst (fun p => added p.2) puts _ x N _ _ _ fs
    (fun p us ⟨ts, hts, heq⟩ => heq ▸ spans_plain (hw.spans p ts hts))
    (fun p us ⟨ts, hts, heq⟩ => ⟨ts, hts, congrArg _ heq⟩) horderedKept hsorted hbehind
    (List.forall_mem_map.mpr hstops) hwhere
    (fun p hp => hadded p.2 p.1 (Node.mem_staying.mp hp).1 (Node.mem_staying.mp hp).2) hlast
  obtain ⟨vs, hvs, hrespells⟩ := exists_of_spelled hts'
  refine ⟨vs, hvs, ?_⟩
  rw [hweave]
  rw [Respells] at hrespells ⊢
  simp only [List.map_append, List.map_cons, List.map_nil, hrespells, List.append_assoc,
    List.cons_append, List.nil_append]

end

end Syntax

namespace Document

open Syntax (Node Bracketed commaSeparated)

variable {uri text : String} {c : Configuration} {d : Document}

/-- The members of a list in brackets among the tokens of a document. A text with the tokens of other
members between these brackets is read as the file with the list of these members. -/
theorem exists_list (h : parse uri text c = .ok d) {q : Pointer} {n : Node}
    (hn : d.syntaxTree.resolve? q = some n) (hlist : n.isBracketed = true) :
    ∃ front opening us closing back,
      d.tokens.tokens.toList.filter Token.isCode = front ++ opening :: (us ++ closing :: back) ∧
      Bracketed n opening closing us ∧
      ∀ ms vs ks newText, commaSeparated n.Lists ms vs → Lexer.Codes newText.toList ks →
        Respells ks ((front ++ opening :: (vs ++ closing :: back)).map Token.plain) →
        ∃ d', parse uri newText c = .ok d' ∧
          d'.syntaxTree.content = (d.syntaxTree.graft q (n.withMembers ms)).content := by
  have hnot : (∀ f, n ≠ .file f) ∧ (∀ i, n ≠ .qualifier i) ∧ (∀ t, n ≠ .target t) ∧
      ∀ e, n ≠ .declaration e := by
    refine ⟨?_, ?_, ?_, ?_⟩ <;> rintro x rfl <;> cases hlist
  rcases exists_step h hn with ⟨_, rfl⟩ | ⟨p, path, parent, rfl, hp, hc, _⟩
  · exact absurd rfl (hnot.1 _)
  have hparent : ∀ f, parent ≠ .file f := by
    rintro f rfl
    rcases Node.cases_of_mem_file hc with ⟨_, e, _, _, rfl⟩ | ⟨_, t, _, _, rfl⟩
    · exact hnot.2.2.2 e rfl
    · exact hnot.2.2.1 t rfl
  obtain ⟨front, ts, back, hcode, hts, _, _, hput⟩ :=
    Syntax.grafts_file (written_file h) hp hc hnot.2.1 hparent
  obtain ⟨opening, closing, us, rfl, hbracketed, hrefills⟩ := hts.exists_bracketed hlist
  refine ⟨front, opening, us, closing, back, ?_, hbracketed, ?_⟩
  · rw [hcode]
    simp only [List.cons_append, List.append_assoc, List.nil_append]
  intro ms vs ks newText hms hcodes hrespells
  obtain ⟨m, hm, hcontent⟩ :=
    hrefills opening closing ms vs hbracketed.first hbracketed.final hms
  obtain ⟨k, hk, hkcontent, _⟩ := hput m (n.withMembers ms) _ hm hcontent.symm
  obtain ⟨tokens, hread, htokens⟩ := hcodes .origin
  refine exists_parse_of_graft h hp hc hk hkcontent hread ?_
  have hsame : front ++ (opening :: (vs ++ [closing]) ++ back) =
      front ++ opening :: (vs ++ closing :: back) := by
    simp only [List.cons_append, List.append_assoc, List.nil_append]
  rw [hsame]
  exact (show Respells _ ks from htokens).trans hrespells

end Document

end AnnotationEdit

import AnnotationEdit.Proofs.Sorting
import AnnotationEdit.Proofs.Text.Offsets
import AnnotationEdit.Proofs.Writer.Application

/-!
# Applying edits

Edits are applied in one pass from the front, copying what stands between them. The pass gets
through exactly when each edit starts where the ones before it have ended, and then it leads to the
text that is left when the edits are carried out one by one from the back, so that none of them
moves what an earlier one takes (`TextEdit.applyAll_arranged`). The order in which edits are handed
in only counts among those of one range.
-/

namespace AnnotationEdit

/-! ## Bytes -/

namespace Text

/-- The characters in UTF-8. -/
def bytes (cs : List Char) : List UInt8 := cs.flatMap String.utf8EncodeChar

theorem bytes_append (cs ds : List Char) : bytes (cs ++ ds) = bytes cs ++ bytes ds :=
  List.flatMap_append

theorem length_bytes : ∀ cs : List Char, (bytes cs).length = byteLength cs
  | [] => rfl
  | c :: cs => by
      have ih := length_bytes cs
      rw [bytes] at ih ⊢
      rw [List.flatMap_cons, List.length_append, String.length_utf8EncodeChar, ih, byteLength_cons]

theorem byteLength_take_max (cs : List Char) (m n : Nat) :
    byteLength (cs.take (max m n)) = max (byteLength (cs.take m)) (byteLength (cs.take n)) := by
  rcases Nat.le_total m n with h | h
  · rw [Nat.max_eq_right h, Nat.max_eq_right (byteLength_take_mono cs h)]
  · rw [Nat.max_eq_left h, Nat.max_eq_left (byteLength_take_mono cs h)]

end Text

namespace TextEdit

variable {lines : Lines} {edits : List TextEdit}

/-! ## One pass -/

/-- The second edit starts where the first one has started and ended, or later. -/
def Clears (lines : Lines) (d e : TextEdit) : Prop :=
  lines.offset d.range.start ≤ lines.offset e.range.start ∧
    lines.offset d.range.stop ≤ lines.offset e.range.start

instance (d e : TextEdit) : Decidable (Clears lines d e) := by
  unfold Clears
  infer_instance

theorem clears_iff {d e : TextEdit} : Clears lines d e ↔
    Nat.max (lines.index d.range.stop) (lines.index d.range.start) ≤ lines.index e.range.start := by
  rw [Clears, Lines.offset_le_offset, Lines.offset_le_offset]
  exact and_comm.trans Nat.max_le.symm

theorem splice_cons_of_le {e : TextEdit} {es : List TextEdit} {cursor : Nat} {cs : List Char}
    (hfirst : cursor ≤ lines.index e.range.start)
    (hrest : splice lines (Nat.max (lines.index e.range.stop) (lines.index e.range.start)) es =
      .ok cs) :
    splice lines cursor (e :: es) =
      .ok (lines.between cursor (lines.index e.range.start) ++ (e.newText.toList ++ cs)) := by
  rw [splice, if_neg (Nat.not_lt.mpr hfirst), hrest]

/-- The pass gets through when no edit starts in front of the cursor or of an earlier edit. -/
theorem exists_splice_iff : ∀ {es : List TextEdit} {cursor : Nat},
    (∃ cs, splice lines cursor es = .ok cs) ↔
      (∀ e ∈ es, cursor ≤ lines.index e.range.start) ∧ es.Pairwise (Clears lines)
  | [], cursor => iff_of_true ⟨_, rfl⟩ ⟨fun _ h => absurd h List.not_mem_nil, .nil⟩
  | e :: es, cursor => by
      rw [List.forall_mem_cons, List.pairwise_cons]
      constructor
      · rintro ⟨cs, hcs⟩
        obtain ⟨hfirst, rest, hrest, _⟩ := splice_cons_eq_ok hcs
        obtain ⟨hlater, hes⟩ := exists_splice_iff.mp ⟨rest, hrest⟩
        refine ⟨⟨hfirst, fun f hf => ?_⟩, fun f hf => clears_iff.mpr (hlater f hf), hes⟩
        exact Nat.le_trans hfirst (Nat.le_trans (Nat.le_max_right _ _) (hlater f hf))
      · rintro ⟨⟨hfirst, _⟩, hclears, hes⟩
        obtain ⟨rest, hrest⟩ := exists_splice_iff.mpr
          ⟨fun f hf => clears_iff.mp (hclears f hf), hes⟩
        exact ⟨_, splice_cons_of_le hfirst hrest⟩

/-! ## From the back -/

/-- Puts the new text in place of the bytes of the range; of a range that ends before it starts, in
front of those behind its start. -/
def replaceBytes (lines : Lines) (e : TextEdit) (bytes : List UInt8) : List UInt8 :=
  bytes.take (lines.offset e.range.start) ++ Text.bytes e.newText.toList ++
    bytes.drop (max (lines.offset e.range.start) (lines.offset e.range.stop))

/-- An edit in a text whose front, up to the end of the edit, is that of the source. -/
theorem replaceBytes_bytes (e : TextEdit) (rest : List Char) :
    replaceBytes lines e (Text.bytes (lines.chars.take
      (max (lines.index e.range.start) (lines.index e.range.stop)) ++ rest)) =
      Text.bytes (lines.chars.take (lines.index e.range.start) ++ (e.newText.toList ++ rest)) := by
  set first := lines.index e.range.start
  set next := max first (lines.index e.range.stop)
  have hfront : lines.chars.take next =
      lines.chars.take first ++ (lines.chars.drop first).take (next - first) := by
    rw [← List.take_add, Nat.add_sub_cancel' (Nat.le_max_left _ _)]
  have hstart : (Text.bytes (lines.chars.take first)).length = lines.offset e.range.start :=
    Text.length_bytes _
  have hnext : (Text.bytes (lines.chars.take next)).length =
      max (lines.offset e.range.start) (lines.offset e.range.stop) := by
    rw [Text.length_bytes, Text.byteLength_take_max]
    rfl
  have htake : (Text.bytes (lines.chars.take next ++ rest)).take (lines.offset e.range.start) =
      Text.bytes (lines.chars.take first) := by
    rw [hfront, List.append_assoc, Text.bytes_append, List.take_left' hstart]
  have hdrop : (Text.bytes (lines.chars.take next ++ rest)).drop
      (max (lines.offset e.range.start) (lines.offset e.range.stop)) = Text.bytes rest := by
    rw [Text.bytes_append, List.drop_left' hnext]
  rw [replaceBytes, htake, hdrop, Text.bytes_append, Text.bytes_append, List.append_assoc]

/-- What the pass puts behind the cursor is what the edits leave there from the back. -/
theorem foldr_replaceBytes : ∀ {es : List TextEdit} {cursor : Nat} {cs : List Char},
    splice lines cursor es = .ok cs →
      es.foldr (replaceBytes lines) (Text.bytes lines.chars) =
        Text.bytes (lines.chars.take cursor ++ cs)
  | [], cursor, cs, h => by
      obtain rfl : lines.chars.drop cursor = cs := Except.ok.inj h
      rw [List.take_append_drop]
      rfl
  | e :: es, cursor, cs, h => by
      obtain ⟨hfirst, rest, hrest, rfl⟩ := splice_cons_eq_ok h
      have hfront : lines.chars.take cursor ++ lines.between cursor (lines.index e.range.start) =
          lines.chars.take (lines.index e.range.start) := by
        rw [Lines.between, ← List.take_add, Nat.add_sub_cancel' hfirst]
      have hmax : Nat.max (lines.index e.range.stop) (lines.index e.range.start) =
          max (lines.index e.range.start) (lines.index e.range.stop) := Nat.max_comm _ _
      rw [List.foldr_cons, foldr_replaceBytes hrest, hmax, replaceBytes_bytes,
        ← List.append_assoc (lines.chars.take cursor), hfront]

/-! ## The order of the edits -/

/-- Earlier starts first, then earlier ends, then what stands earlier in the list. -/
def Precedes (a b : TextEdit × Nat) : Prop :=
  a.1.range.start < b.1.range.start ∨ a.1.range.start = b.1.range.start ∧
    (a.1.range.stop < b.1.range.stop ∨ a.1.range.stop = b.1.range.stop ∧ a.2 < b.2)

instance (a b : TextEdit × Nat) : Decidable (Precedes a b) := by
  unfold Precedes
  infer_instance

/-- The second list holds the edits of the first one in the order in which they are applied. -/
def Arranges (edits sorted : List TextEdit) : Prop :=
  ∃ numbered : List (TextEdit × Nat), numbered.Perm edits.zipIdx ∧ numbered.Pairwise Precedes ∧
    numbered.map (·.1) = sorted

theorem precedes_iff {a b : TextEdit × Nat} :
    Precedes a b ↔ a.1.key < b.1.key ∨ a.1.key = b.1.key ∧ a.2 < b.2 := by
  rw [key, key, Prod.Lex.lt_iff, toLex_inj, Prod.mk.injEq]
  dsimp only [ofLex_toLex, Precedes]
  tauto

theorem not_precedes_of_precedes {a b : TextEdit × Nat} (hab : Precedes a b) : ¬Precedes b a := by
  rw [precedes_iff] at hab ⊢
  rintro (hba | ⟨hkey, hba⟩)
  · rcases hab with hab | ⟨hkey, _⟩
    · exact lt_asymm hab hba
    · exact ne_of_lt hba hkey.symm
  · rcases hab with hab | ⟨_, hab⟩
    · exact ne_of_lt hab hkey.symm
    · exact Nat.lt_asymm hab hba

/-- Sorting the numbered edits sorts them by number where their ranges are the same. -/
theorem precedes_of_zipIdxLE {a b : TextEdit × Nat} (h : List.zipIdxLE comesFirst a b = true)
    (hne : a.2 ≠ b.2) : Precedes a b := by
  rw [precedes_iff]
  unfold List.zipIdxLE at h
  split at h
  · next hab =>
    rw [comesFirst_iff] at hab
    rcases lt_or_eq_of_le hab with hlt | heq
    · exact Or.inl hlt
    · rw [if_pos (comesFirst_iff.mpr (le_of_eq heq.symm)), decide_eq_true_eq] at h
      exact Or.inr ⟨heq, Nat.lt_of_le_of_ne h hne⟩
  · cases h

/-- There is one such order, and it is the one that edits are applied in. -/
theorem arranges_iff {sorted : List TextEdit} :
    Arranges edits sorted ↔ sorted = edits.mergeSort comesFirst := by
  have hperm := List.mergeSort_perm edits.zipIdx (List.zipIdxLE comesFirst)
  have hsorted : (edits.zipIdx.mergeSort (List.zipIdxLE comesFirst)).Pairwise Precedes := by
    have hle := List.pairwise_mergeSort (List.zipIdxLE_trans comesFirst_trans)
      (List.zipIdxLE_total comesFirst_total) edits.zipIdx
    have hnumbers : (edits.zipIdx.mergeSort (List.zipIdxLE comesFirst)).Pairwise
        fun a b => a.2 ≠ b.2 := by
      refine List.pairwise_map.mp ?_
      refine ((hperm.map Prod.snd).nodup_iff).mpr ?_
      rw [List.zipIdx_map_snd]
      exact List.nodup_range'
    exact (hle.and hnumbers).imp fun h => precedes_of_zipIdxLE h.1 h.2
  constructor
  · rintro ⟨numbered, hnumbered, hprecedes, rfl⟩
    have hsame : numbered = edits.zipIdx.mergeSort (List.zipIdxLE comesFirst) :=
      List.Perm.eq_of_pairwise (fun a b _ _ hab hba => absurd hba (not_precedes_of_precedes hab))
        hprecedes hsorted (hnumbered.trans hperm.symm)
    rw [hsame, List.mergeSort_zipIdx]
  · rintro rfl
    exact ⟨_, hperm, hsorted, List.mergeSort_zipIdx⟩

/-- Edits of one range count in their order, and only those. -/
theorem applyAll_eq_of_filter (text : String) {reordered : List TextEdit}
    (h : ∀ range, reordered.filter (·.range = range) = edits.filter (·.range = range)) :
    applyAll text reordered = applyAll text edits := by
  have hkey : ∀ k : Position ×ₗ Position,
      reordered.filter (·.key = k) = edits.filter (·.key = k) := by
    intro k
    have hrange : ∀ e : TextEdit, e.key = k ↔ e.range = ⟨(ofLex k).1, (ofLex k).2⟩ := by
      intro e
      rw [key, ← toLex_ofLex k, toLex_inj, ofLex_toLex, Prod.ext_iff, ← Range.mk.injEq]
    simp only [hrange]
    exact h _
  have hsort : reordered.mergeSort comesFirst = edits.mergeSort comesFirst :=
    mergeSort_eq_of_filter_key (fun _ _ => comesFirst_iff) hkey
  rw [applyAll, applyAll, hsort]

theorem applyAll_eq_ok {text result : String} : applyAll text edits = .ok result ↔
    splice (Lines.ofString text) 0 (edits.mergeSort comesFirst) = .ok result.toList := by
  rw [applyAll]
  cases splice (Lines.ofString text) 0 (edits.mergeSort comesFirst) with
  | error e => exact iff_of_false (fun h => by cases h) (fun h => by cases h)
  | ok cs =>
      show Except.ok (String.ofList cs) = .ok result ↔ _
      rw [Except.ok.injEq, Except.ok.injEq]
      constructor
      · rintro rfl
        exact String.toList_ofList.symm
      · rintro rfl
        exact String.ofList_toList

/-- Edits, sorted by start, end and place in the list, can be applied exactly when each starts where
those before it have started and ended or later, as bytes of the text; and then the bytes of the
result are those left by carrying them out from the last to the first. Edits in another order do the
same when those of each range keep their order. -/
theorem applyAll_arranged (text : String) (edits : List TextEdit) :
    (∃ sorted, Arranges edits sorted) ∧
    (∀ sorted, Arranges edits sorted →
      ((∃ result, applyAll text edits = .ok result) ↔
        sorted.Pairwise (Clears (Lines.ofString text))) ∧
      ∀ result, applyAll text edits = .ok result → Text.bytes result.toList =
        sorted.foldr (replaceBytes (Lines.ofString text)) (Text.bytes text.toList)) ∧
    ∀ reordered : List TextEdit,
      (∀ range, reordered.filter (·.range = range) = edits.filter (·.range = range)) →
        applyAll text reordered = applyAll text edits := by
  refine ⟨⟨_, arranges_iff.mpr rfl⟩, ?_, fun _ => applyAll_eq_of_filter text⟩
  intro sorted hsorted
  rw [arranges_iff.mp hsorted]
  constructor
  · calc (∃ result, applyAll text edits = .ok result)
        ↔ ∃ cs, splice (Lines.ofString text) 0 (edits.mergeSort comesFirst) = .ok cs := by
          constructor
          · rintro ⟨result, hresult⟩
            exact ⟨_, applyAll_eq_ok.mp hresult⟩
          · rintro ⟨cs, hcs⟩
            refine ⟨String.ofList cs, applyAll_eq_ok.mpr ?_⟩
            rw [String.toList_ofList]
            exact hcs
      _ ↔ (edits.mergeSort comesFirst).Pairwise (Clears (Lines.ofString text)) :=
          exists_splice_iff.trans (and_iff_right fun _ _ => Nat.zero_le _)
  · intro result hresult
    exact (foldr_replaceBytes (applyAll_eq_ok.mp hresult)).symm

/-- A range that ends before it starts, two insertions at one position, and one below the text. -/
def mixedEdits : List TextEdit :=
  [⟨⟨⟨0, 1⟩, ⟨0, 0⟩⟩, "x"⟩, .insert ⟨0, 0⟩ "1", .insert ⟨7, 7⟩ "z", .insert ⟨0, 0⟩ "2"]

theorem applyAll_arranged_mixed :
    Arranges mixedEdits [.insert ⟨0, 0⟩ "1", .insert ⟨0, 0⟩ "2", ⟨⟨⟨0, 1⟩, ⟨0, 0⟩⟩, "x"⟩,
      .insert ⟨7, 7⟩ "z"] ∧
    (∃ result, applyAll "äb" mixedEdits = .ok result ∧
      Text.bytes result.toList = Text.bytes "12äxbz".toList) ∧
    applyAll "äb" (mixedEdits.rotate 1) = applyAll "äb" mixedEdits := by
  have harranges : Arranges mixedEdits [.insert ⟨0, 0⟩ "1", .insert ⟨0, 0⟩ "2",
      ⟨⟨⟨0, 1⟩, ⟨0, 0⟩⟩, "x"⟩, .insert ⟨7, 7⟩ "z"] :=
    ⟨[(.insert ⟨0, 0⟩ "1", 1), (.insert ⟨0, 0⟩ "2", 3), (⟨⟨⟨0, 1⟩, ⟨0, 0⟩⟩, "x"⟩, 0),
      (.insert ⟨7, 7⟩ "z", 2)], by decide, by decide, rfl⟩
  obtain ⟨_, hall, hreordered⟩ := applyAll_arranged "äb" mixedEdits
  obtain ⟨hok, hbytes⟩ := hall _ harranges
  refine ⟨harranges, ?_, hreordered _ fun range => ?_⟩
  · obtain ⟨result, hresult⟩ := hok.mpr (by decide)
    exact ⟨result, hresult, (hbytes result hresult).trans (by decide)⟩
  · -- only the inverted range has moved, and no other edit has it
    show List.filter _ [_, _, _, _] = List.filter _ [_, _, _, _]
    by_cases h : (⟨⟨0, 1⟩, ⟨0, 0⟩⟩ : Range) = range
    · subst h
      decide
    · simp [List.filter_cons, h]

end TextEdit

end AnnotationEdit

import AnnotationEdit.Proofs.Printing.RoundTrip
import AnnotationEdit.Proofs.Text.Cutting
import AnnotationEdit.Service.Reference

/-!
# Paths between files

The path from the directory of one file to another file goes up to what the two have in common and
down from there. It leads to the other file, without the extension, unless that is a directory above
the first file: then nothing is left to go down to, and the path names a directory
(`resolve_relativePath_iff`).
-/

namespace AnnotationEdit

/-! ## Pieces -/

namespace Text

theorem not_mem_of_cutFirst? {sep : Char} : ∀ {cs front back : List Char},
    cutFirst? sep cs = some (front, back) → sep ∉ front
  | [], _, _, h => by cases h
  | c :: cs, front, back, h => by
      rw [cutFirst?] at h
      split at h
      · obtain ⟨rfl, -⟩ := Prod.mk.inj (Option.some.inj h)
        exact List.not_mem_nil
      · next hc =>
        obtain ⟨⟨front', back'⟩, hcut, heq⟩ := Option.map_eq_some_iff.mp h
        obtain ⟨rfl, -⟩ := Prod.mk.inj heq
        exact List.not_mem_cons_of_ne_of_not_mem (Ne.symm hc) (not_mem_of_cutFirst? hcut)

theorem not_mem_of_cutFirst?_eq_none {sep : Char} : ∀ {cs : List Char},
    cutFirst? sep cs = none → sep ∉ cs
  | [], _ => List.not_mem_nil
  | c :: cs, h => by
      rw [cutFirst?] at h
      split at h
      · cases h
      · next hc =>
        exact List.not_mem_cons_of_ne_of_not_mem (Ne.symm hc)
          (not_mem_of_cutFirst?_eq_none (Option.map_eq_none_iff.mp h))

/-- The last separator stands in front of the last piece. -/
theorem cutLast?_cases (sep : Char) (cs : List Char) :
    (cutLast? sep cs = none ∧ sep ∉ cs) ∨ ∃ front back, cutLast? sep cs = some (front, back) ∧
      cs = front ++ sep :: back ∧ sep ∉ back := by
  rw [cutLast?]
  cases hcut : cutFirst? sep cs.reverse with
  | none => exact Or.inl ⟨rfl, fun h => not_mem_of_cutFirst?_eq_none hcut (List.mem_reverse.mpr h)⟩
  | some parts =>
      obtain ⟨front, back⟩ := parts
      refine Or.inr ⟨back.reverse, front.reverse, rfl, ?_, fun h => ?_⟩
      · rw [← List.reverse_reverse cs, eq_of_cutFirst? hcut, List.reverse_append,
          List.reverse_cons, List.append_assoc, List.singleton_append]
      · exact not_mem_of_cutFirst? hcut (List.mem_reverse.mp h)

theorem exists_pieces (sep : Char) (cs : List Char) : ∃ init last,
    pieces sep cs = init ++ [last] ∧ sep ∉ last ∧
      ∀ ds, sep ∉ ds → pieces sep (cs ++ ds) = init ++ [last ++ ds] := by
  rcases cutLast?_cases sep cs with ⟨_, hcs⟩ | ⟨front, back, _, rfl, hback⟩
  · refine ⟨[], cs, pieces_eq_singleton hcs, hcs, fun ds hds => ?_⟩
    exact pieces_eq_singleton (List.not_mem_append hcs hds)
  · refine ⟨pieces sep front, back, ?_, hback, fun ds hds => ?_⟩
    · rw [pieces_append, pieces_eq_singleton hback]
    · rw [List.append_assoc, List.cons_append, pieces_append,
        pieces_eq_singleton (List.not_mem_append hback hds)]

theorem not_mem_of_mem_pieces {sep : Char} {cs p : List Char} (h : p ∈ pieces sep cs) :
    sep ∉ p := by
  induction cs generalizing p with
  | nil =>
      rw [pieces, List.mem_singleton] at h
      rw [h]
      exact List.not_mem_nil
  | cons c cs ih =>
      obtain ⟨q, qs, hpieces, _⟩ := Lexer.pieces_eq_cons sep cs
      rw [hpieces] at ih
      by_cases hc : c = sep
      · rw [hc, pieces_sep, hpieces] at h
        rcases List.mem_cons.mp h with rfl | h
        · exact List.not_mem_nil
        · exact ih h
      · rw [pieces_cons hc hpieces] at h
        rcases List.mem_cons.mp h with rfl | h
        · exact List.not_mem_cons_of_ne_of_not_mem (Ne.symm hc) (ih List.mem_cons_self)
        · exact ih (List.mem_cons_of_mem _ h)

theorem not_mem_of_mem_split {sep : Char} {s p : String} (h : p ∈ split sep s) :
    sep ∉ p.toList := by
  obtain ⟨q, hq, rfl⟩ := List.mem_map.mp h
  rw [String.toList_ofList]
  exact not_mem_of_mem_pieces hq

theorem split_slash_append (s t : String) :
    split '/' (s ++ "/" ++ t) = split '/' s ++ split '/' t := by
  rw [split, String.toList_append, String.toList_append, List.append_assoc]
  exact (congrArg _ (pieces_append '/' t.toList s.toList)).trans List.map_append

theorem split_of_not_mem {sep : Char} {s : String} (h : sep ∉ s.toList) : split sep s = [s] := by
  rw [split, pieces_eq_singleton h, List.map_singleton, String.ofList_toList]

/-- Texts put together with slashes are found again. -/
theorem split_joined : ∀ {parts : List String}, (∀ s ∈ parts, '/' ∉ s.toList) → parts ≠ [] →
    split '/' (joined "/" parts) = parts
  | [], _, h => absurd rfl h
  | [s], h, _ => split_of_not_mem (h s List.mem_cons_self)
  | s :: t :: parts, h, _ => by
      obtain ⟨hs, h⟩ := List.forall_mem_cons.mp h
      rw [joined, split_slash_append, split_of_not_mem hs, split_joined h (List.cons_ne_nil _ _)]
      · rfl
      · exact List.cons_ne_nil _ _

/-- Steps up in front of a text. -/
theorem split_times_append (n : Nat) (s : String) :
    split '/' (times "../" n ++ s) = List.replicate n ".." ++ split '/' s := by
  induction n with
  | zero =>
      show split '/' ("" ++ s) = _
      rw [String.empty_append]
      rfl
  | succ n ih =>
      have hstep : times "../" (n + 1) ++ s = ".." ++ "/" ++ (times "../" n ++ s) := by
        rw [times, List.replicate_succ, String.join_cons, String.append_assoc]
        rfl
      rw [hstep, split_slash_append, ih]
      rfl

end Text

/-! ## Paths -/

/-- One step along a path: a dot stays, two dots lead up. -/
def follow (base : List String) (segment : String) : List String :=
  if segment = "." then base else if segment = ".." then base.dropLast else base ++ [segment]

/-- Where a path leads from a directory. -/
def resolveFrom (base path : List String) : List String := path.foldl follow base

/-- The segments of the directory in which a file is. -/
def directoryOf (uri : String) : List String := (Text.split '/' uri).dropLast

theorem resolveFrom_append (base path path' : List String) :
    resolveFrom base (path ++ path') = resolveFrom (resolveFrom base path) path' :=
  List.foldl_append

/-- Names lead down. -/
theorem resolveFrom_names {path : List String} (h : ∀ s ∈ path, s ≠ "." ∧ s ≠ "..") :
    ∀ base, resolveFrom base path = base ++ path := by
  induction path with
  | nil => exact fun base => (List.append_nil base).symm
  | cons s path ih =>
      obtain ⟨⟨hdot, hdots⟩, h⟩ := List.forall_mem_cons.mp h
      intro base
      show resolveFrom (follow base s) path = _
      rw [follow, if_neg hdot, if_neg hdots, ih h, List.append_assoc, List.singleton_append]

theorem resolveFrom_up (base : List String) (n : Nat) :
    resolveFrom base (List.replicate n "..") = base.take (base.length - n) := by
  induction n generalizing base with
  | zero => exact (List.take_length).symm
  | succ n ih =>
      rw [List.replicate_succ]
      show resolveFrom base.dropLast (List.replicate n "..") = _
      rw [ih, List.dropLast_eq_take, List.take_take, List.length_take]
      congr 1
      omega

/-! ## The common front -/

theorem commonFront_spec : ∀ as bs : List String,
    commonFront as bs ≤ as.length ∧ commonFront as bs ≤ bs.length ∧
      as.take (commonFront as bs) = bs.take (commonFront as bs)
  | [], bs => ⟨Nat.zero_le _, Nat.zero_le _, rfl⟩
  | a :: as, [] => ⟨Nat.zero_le _, Nat.zero_le _, rfl⟩
  | a :: as, b :: bs => by
      rw [commonFront]
      split
      · next hab =>
        obtain ⟨hleft, hright, htake⟩ := commonFront_spec as bs
        refine ⟨Nat.succ_le_succ hleft, Nat.succ_le_succ hright, ?_⟩
        rw [List.take_succ_cons, List.take_succ_cons, hab, htake]
      · exact ⟨Nat.zero_le _, Nat.zero_le _, rfl⟩

theorem commonFront_eq_length_iff : ∀ {as bs : List String},
    commonFront as bs = bs.length ↔ bs <+: as
  | as, [] => by simp [commonFront.eq_def]
  | [], b :: bs => by simp [commonFront]
  | a :: as, b :: bs => by
      rw [commonFront, List.cons_prefix_cons, List.length_cons]
      split
      · next hab =>
        rw [Nat.add_right_cancel_iff, commonFront_eq_length_iff]
        exact ⟨fun h => ⟨hab.symm, h⟩, fun h => h.2⟩
      · next hab =>
        constructor
        · intro h
          omega
        · exact fun h => absurd h.1.symm hab

/-! ## The path from file to file -/

section

variable (source stem : String)

/-- The path is written from the common front of the two files. -/
theorem relativePath_eq : relativePath source (stem ++ ".cds") =
    (if (directoryOf source).length = commonFront (directoryOf source) (Text.split '/' stem)
      then "./"
      else Text.times "../" ((directoryOf source).length -
        commonFront (directoryOf source) (Text.split '/' stem))) ++
      Text.joined "/" ((Text.split '/' stem).drop
        (commonFront (directoryOf source) (Text.split '/' stem))) := by
  have hstem : Text.stripBack? ".cds" (stem ++ ".cds") = some stem := by
    rw [Text.stripBack?, String.toList_append, List.reverse_append, Text.dropFront?_append,
      Option.map_some, List.reverse_reverse, String.ofList_toList]
  unfold relativePath
  rw [hstem, Option.getD_some]
  rcases Text.cutLast?_cases '/' source.toList with
    ⟨hcut, hnone⟩ | ⟨front, back, hcut, heq, hback⟩
  · have hdirectory : directoryOf source = [] := by
      rw [directoryOf, Text.split, Text.pieces_eq_singleton hnone]
      rfl
    rw [hcut, hdirectory]
    exact (apply_ite (· ++ _) _ _ _).symm
  · have hdirectory : directoryOf source = (Text.pieces '/' front).map String.ofList := by
      rw [directoryOf, Text.split, heq, Text.pieces_append, Text.pieces_eq_singleton hback,
        List.map_append, List.map_singleton, List.dropLast_concat]
    rw [hcut, hdirectory]
    exact (apply_ite (· ++ _) _ _ _).symm

/-- The path starts with a step: it stays in the directory or leads up. -/
theorem startsWith_relativePath :
    Text.startsWith "./" (relativePath source (stem ++ ".cds")) = true ∨
      Text.startsWith "../" (relativePath source (stem ++ ".cds")) = true := by
  have hfront (front rest : String) : Text.startsWith front (front ++ rest) = true := by
    rw [Text.startsWith, String.toList_append, Text.dropFront?_append]
    rfl
  obtain ⟨hle, _, _⟩ := commonFront_spec (directoryOf source) (Text.split '/' stem)
  rw [relativePath_eq]
  split
  · exact Or.inl (hfront _ _)
  · next hne =>
    obtain ⟨n, hn⟩ := Nat.exists_eq_succ_of_ne_zero
      (Nat.sub_ne_zero_of_lt (Nat.lt_of_le_of_ne hle (Ne.symm hne)))
    right
    rw [hn, Text.times, List.replicate_succ, String.join_cons, String.append_assoc]
    exact hfront _ _

/-- The segments of the path: steps up, if any, and what is left to go down. -/
theorem split_relativePath : ∃ steps,
    Text.split '/' (relativePath source (stem ++ ".cds")) =
      steps ++ Text.split '/' (Text.joined "/" ((Text.split '/' stem).drop
        (commonFront (directoryOf source) (Text.split '/' stem)))) ∧
    resolveFrom (directoryOf source) steps = (Text.split '/' stem).take
      (commonFront (directoryOf source) (Text.split '/' stem)) := by
  obtain ⟨hle, _, htake⟩ := commonFront_spec (directoryOf source) (Text.split '/' stem)
  rw [relativePath_eq, ← htake]
  split
  · next heq =>
    refine ⟨["."], Text.split_slash_append "." _, ?_⟩
    rw [← heq, List.take_length]
    rfl
  · refine ⟨_, Text.split_times_append _ _, ?_⟩
    rw [resolveFrom_up, Nat.sub_sub_self hle]

/-- The path of a file that is not a directory above the source goes down to it. -/
theorem split_relativePath_of_not_above (h : ¬ Text.split '/' stem <+: directoryOf source) :
    ∃ steps init down last, Text.split '/' stem = init ++ down ++ [last] ∧
      Text.split '/' (relativePath source (stem ++ ".cds")) = steps ++ (down ++ [last]) ∧
      resolveFrom (directoryOf source) steps = init := by
  obtain ⟨_, hlength, _⟩ := commonFront_spec (directoryOf source) (Text.split '/' stem)
  obtain ⟨steps, hsplit, hsteps⟩ := split_relativePath source stem
  set common := commonFront (directoryOf source) (Text.split '/' stem) with hcommon
  have hlt : common < (Text.split '/' stem).length :=
    Nat.lt_of_le_of_ne hlength fun heq => h (commonFront_eq_length_iff.mp heq)
  have hne : (Text.split '/' stem).drop common ≠ [] := fun hnil => by
    rw [List.drop_eq_nil_iff] at hnil
    omega
  have hdown := (List.dropLast_append_getLast hne).symm
  rw [Text.split_joined (fun s hs => Text.not_mem_of_mem_split (List.mem_of_mem_drop hs)) hne]
    at hsplit
  refine ⟨steps, (Text.split '/' stem).take common, _, _, ?_, hdown ▸ hsplit, hsteps⟩
  rw [List.append_assoc, ← hdown, List.take_append_drop]

end

/-- The path to a directory above the source ends with a slash. -/
theorem resolve_relativePath_of_above {source stem : String}
    (h : Text.split '/' stem <+: directoryOf source) :
    resolveFrom (directoryOf source) (Text.split '/' (relativePath source (stem ++ ".cds"))) =
      Text.split '/' stem ++ [""] := by
  obtain ⟨steps, hsplit, hsteps⟩ := split_relativePath source stem
  rw [commonFront_eq_length_iff.mpr h] at hsplit hsteps
  rw [List.drop_length] at hsplit
  rw [List.take_length] at hsteps
  rw [hsplit, resolveFrom_append, hsteps]
  rfl

/-- All segments of a file but the last one are there with the extension as well. -/
theorem mem_split_extension {stem s last : String} {segments : List String}
    (h : Text.split '/' stem = segments ++ [last]) (hs : s ∈ segments) :
    s ∈ Text.split '/' (stem ++ ".cds") := by
  obtain ⟨init, final, hpieces, _, happend⟩ := Text.exists_pieces '/' stem.toList
  rw [Text.split, hpieces, List.map_append, List.map_singleton] at h
  obtain ⟨rfl, -⟩ := List.append_inj' h rfl
  rw [Text.split, String.toList_append, happend _ (by decide), List.map_append]
  exact List.mem_append_left _ hs

/-- The path from the directory of a file leads to the other file, without its extension, exactly
when the other file is not a directory above the first one, apart from the extension, and its name
is not made of dots. -/
theorem resolve_relativePath_iff {source stem : String}
    (hdots : ∀ s ∈ Text.split '/' (stem ++ ".cds"), s ≠ "." ∧ s ≠ "..") :
    (Text.startsWith "./" (relativePath source (stem ++ ".cds")) = true ∨
      Text.startsWith "../" (relativePath source (stem ++ ".cds")) = true) ∧
    (¬ Text.split '/' stem <+: directoryOf source →
      (Text.split '/' (relativePath source (stem ++ ".cds"))).getLast? =
        (Text.split '/' stem).getLast?) ∧
    (resolveFrom (directoryOf source) (Text.split '/' (relativePath source (stem ++ ".cds"))) =
        Text.split '/' stem ↔
      ¬ Text.split '/' stem <+: directoryOf source ∧
        (Text.split '/' stem).getLast? ≠ some "." ∧
        (Text.split '/' stem).getLast? ≠ some "..") := by
  refine ⟨startsWith_relativePath source stem, fun h => ?_, ?_⟩
  · obtain ⟨steps, init, down, last, hstem, hpath, _⟩ :=
      split_relativePath_of_not_above source stem h
    rw [hpath, hstem, ← List.append_assoc, List.getLast?_concat, List.getLast?_concat]
  · by_cases habove : Text.split '/' stem <+: directoryOf source
    · rw [resolve_relativePath_of_above habove, List.append_right_eq_self]
      exact ⟨fun h => absurd h (List.cons_ne_nil _ _), fun h => absurd habove h.1⟩
    · obtain ⟨steps, init, down, last, hstem, hpath, hsteps⟩ :=
        split_relativePath_of_not_above source stem habove
      have hdown : ∀ s ∈ down, s ≠ "." ∧ s ≠ ".." := fun s hs =>
        hdots s (mem_split_extension hstem (List.mem_append_right init hs))
      rw [hpath, resolveFrom_append, resolveFrom_append, hsteps, resolveFrom_names hdown, hstem,
        List.getLast?_concat]
      rw [hstem] at habove
      show follow (init ++ down) last = init ++ down ++ [last] ↔ _
      -- a name goes down once more; dots would stay or go up, to fewer segments
      by_cases hdot : last = "."
      · rw [follow, if_pos hdot, List.self_eq_append_right]
        exact ⟨fun h => absurd h (List.cons_ne_nil _ _), fun h => absurd (congrArg some hdot) h.2.1⟩
      · by_cases hup : last = ".."
        · rw [follow, if_neg hdot, if_pos hup]
          constructor
          · intro h
            have hlength := congrArg List.length h
            simp only [List.length_dropLast, List.length_append, List.length_singleton] at hlength
            omega
          · exact fun h => absurd (congrArg some hup) h.2.2
        · rw [follow, if_neg hdot, if_neg hup]
          exact ⟨fun _ => ⟨habove, fun h => hdot (Option.some.inj h),
            fun h => hup (Option.some.inj h)⟩, fun _ => rfl⟩

/-- Another directory, and the directory of the source itself. -/
theorem resolve_relativePath_iff_sibling :
    (∀ s ∈ Text.split '/' ("file:///p/srv/service" ++ ".cds"), s ≠ "." ∧ s ≠ "..") ∧
      relativePath "file:///p/app/annotations.cds" "file:///p/srv/service.cds" = "../srv/service" ∧
      resolveFrom (directoryOf "file:///p/app/annotations.cds")
        (Text.split '/' (relativePath "file:///p/app/annotations.cds"
          ("file:///p/srv/service" ++ ".cds"))) = ["file:", "", "", "p", "srv", "service"] ∧
      relativePath "file:///p/a/b.cds" "file:///p/a.cds" = "./" := by
  have hdots : ∀ s ∈ Text.split '/' ("file:///p/srv/service" ++ ".cds"), s ≠ "." ∧ s ≠ ".." := by
    decide
  exact ⟨hdots, by decide, ((resolve_relativePath_iff hdots).2.2.mpr (by decide)).trans (by decide),
    by decide⟩

end AnnotationEdit

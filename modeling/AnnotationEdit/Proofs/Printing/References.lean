import AnnotationEdit.Proofs.Printing.RoundTrip
import AnnotationEdit.Proofs.Syntax.Meaning

/-!
# Printed references

A printed reference is read as a declaration that stands for it (`Printing.spells_reference`): with
a name or without one, with a nickname or without one, and whatever the address is.
-/

namespace AnnotationEdit

open Lexer (Spells Break Anything)

/-- The canonical form does not look at ranges. -/
theorem Tree.Target.canonical_bare (f : String → String) (t : Target) :
    t.bare.canonical f = t.canonical f := by
  rw [canonical, canonical, bare, List.map_map]
  exact congrArg _ (List.map_congr_left fun e _ => e.canonical_bare f)

/-- A reference whose names can be written and read back. -/
def Tree.Reference.isPrintable (r : Reference) : Bool :=
  (r.name.isEmpty || Lexer.isDotted r.name) && r.nickname.all Lexer.isName

namespace Lexer

theorem break_append {cs ds : List Char} (hcs : ∀ c ∈ cs.head?, isBreak c = true)
    (hds : ∀ rest, Break (ds ++ rest)) (rest : List Char) : Break ((cs ++ ds) ++ rest) := by
  rcases cs with _ | ⟨c, cs⟩
  · exact hds rest
  · exact break_cons (hcs c rfl)

theorem endsWord_blank (cs : List Char) : EndsWord (' ' :: cs) :=
  (break_cons (by decide)).endsWord

end Lexer

namespace Printing

/-- A word after a blank, and what follows it after another one; nothing where nothing follows. -/
def worded (word : String) : Option (List Char) → List Char
  | some cs => ' ' :: (word.toList ++ ' ' :: cs)
  | none => []

theorem isBreak_worded (word : String) (cs : Option (List Char)) :
    ∀ c ∈ (worded word cs).head?, Lexer.isBreak c = true := by
  intro c hc
  cases cs with
  | none => cases hc
  | some cs =>
      obtain rfl := Option.some.inj hc
      decide

/-- The part of a declaration that a keyword starts, when `text` is read as something whose `name`
is the string it was printed for. -/
theorem spells_worded {β : Type} (word : String) {written : β → List Token → Prop}
    {name : β → String} {text : String → List Char} {a : Option String}
    (hword : Lexer.isWord word.toList = true) (hkeyword : Lexer.keywords.contains word = true)
    (h : ∀ s ∈ a, Spells Break (text s) fun ts => ∃ b, written b ts ∧ name b = s) :
    Spells Break (worded word (a.map text))
      (fun ts => ∃ b, Syntax.afterWord word written b ts ∧ b.map name = a) := by
  cases a with
  | none => exact Spells.nil.imp fun ts hts => ⟨none, hts, rfl⟩
  | some s =>
      refine (((Lexer.spells_keyword hword hkeyword).append ((h s rfl).blank ' ' (by decide))
        fun _ _ => Lexer.endsWord_blank _).blank ' ' (by decide)).imp ?_
      rintro ts ⟨us, vs, rfl, ⟨t, rfl, ht⟩, b, hb, hname⟩
      exact ⟨some b, ⟨t, vs, rfl, ht, hb⟩, congrArg some hname⟩

theorem spells_nickname {s : String} (h : Lexer.isName s = true) : Spells Break s.toList fun ts =>
    ∃ i : Syntax.Identifier, (∃ t, ts = [t] ∧ i.WrittenAs .other t) ∧ i.text = s := by
  refine (Lexer.spells_name .other h).mono (fun _ hrest => hrest.endsWord) ?_
  rintro ts ⟨t, rfl, ht, htext⟩
  exact ⟨⟨t.text, t.range⟩, ⟨t, rfl, ht, rfl⟩, htext⟩

theorem spells_address (s : String) : Spells Break (Printer.quote s).toList fun ts =>
    ∃ p : Syntax.Primitive, p.WrittenAs ts ∧ Syntax.unquote p.text = s := by
  refine (Lexer.spells_quote s).mono (fun _ hrest c hc => (hrest c hc).2.2) ?_
  rintro ts ⟨t, rfl, ht, htext⟩
  refine ⟨_, Or.inl ⟨t, rfl, ht, rfl⟩, ?_⟩
  rw [htext, unquote_quote]

def declared (name : String) : List Char := if name.isEmpty then [] else ' ' :: name.toList

theorem isBreak_declared (name : String) : ∀ c ∈ (declared name).head?, Lexer.isBreak c = true := by
  intro c hc
  rw [declared] at hc
  split at hc
  · cases hc
  · obtain rfl := Option.some.inj hc
    decide

theorem spells_declared {name : String} (h : (name.isEmpty || Lexer.isDotted name) = true) :
    Spells Break (declared name) fun ts => ∃ path : Option Syntax.Path,
      Syntax.nameWrittenAs path ts ∧ (path.map (·.text)).getD "" = name := by
  rw [declared]
  split
  · next hempty =>
    refine Spells.nil.imp fun ts hts => ⟨none, hts, ?_⟩
    exact (String.isEmpty_iff.mp hempty).symm
  · next hempty =>
    have hdotted := (Bool.or_eq_true_iff.mp h).resolve_left hempty
    refine ((Lexer.spells_path .entity hdotted).mono (fun _ hrest => hrest.endsWord)
      (fun _ => id)).blank ' ' (by decide) |>.imp ?_
    rintro ts ⟨path, hpath, htext, _⟩
    exact ⟨some path, hpath, htext⟩

theorem toList_reference (r : Tree.Reference) : (Printer.reference r).toList =
    "using".toList ++ (declared r.name ++ (worded "as" (r.nickname.map (·.toList)) ++
      (worded "from" (r.uri.map fun uri => (Printer.quote uri).toList) ++ [';']))) := by
  obtain ⟨name, nickname, uri, range⟩ := r
  rw [Printer.reference, declared]
  cases nickname <;> cases uri <;>
    simp [worded, apply_ite String.toList]

/-- A printed reference is read as a declaration that stands for it. -/
theorem spells_reference {r : Tree.Reference} (hr : r.isPrintable = true) :
    Spells Anything (Printer.reference r).toList
      (fun ts => ∃ d : Syntax.Declaration, d.WrittenAs ts ∧ d.reference.bare = r.bare) := by
  rw [Tree.Reference.isPrintable, Bool.and_eq_true] at hr
  obtain ⟨hname, hnickname⟩ := hr
  have hclosing : Spells Anything [';'] _ := Lexer.spells_mark (by decide)
  have hafter : ∀ rest, Break ([';'] ++ rest) := fun rest => Lexer.break_cons (by decide)
  have hsource := (spells_worded "from" (a := r.uri) (by decide) (by decide)
    fun uri _ => spells_address uri).append hclosing fun rest _ => hafter rest
  have hsource' := Lexer.break_append
    (isBreak_worded "from" (r.uri.map fun uri => (Printer.quote uri).toList)) hafter
  have hnick := (spells_worded "as" (a := r.nickname) (by decide) (by decide) fun s hs =>
    spells_nickname ((Option.all_eq_true _ _).mp hnickname s hs)).append hsource
      fun rest _ => hsource' rest
  have hnick' := Lexer.break_append (isBreak_worded "as" (r.nickname.map (·.toList))) hsource'
  have hall := (spells_declared hname).append hnick fun rest _ => hnick' rest
  have hall' := Lexer.break_append (isBreak_declared r.name) hnick'
  have hword := (Lexer.spells_keyword (by decide : Lexer.isWord "using".toList = true)
    (by decide)).append hall fun rest _ => (hall' rest).endsWord
  rw [toList_reference]
  refine hword.imp ?_
  rintro ts ⟨_, ts₁, rfl, ⟨first, rfl, hfirst⟩, us, ts₂, rfl, ⟨name, hus, hname⟩, vs, ts₃, rfl,
    ⟨nickname, hvs, hnickname⟩, ws, ts₄, rfl, ⟨source, hws, hsource⟩, closing, rfl, hclosing⟩
  refine ⟨⟨⟨first.range.start, closing.range.stop⟩, name, nickname, source⟩,
    ⟨first, us, vs, ws, closing, rfl, hfirst, hus, hvs, hws, hclosing, rfl⟩, ?_⟩
  rw [Syntax.Declaration.reference, Tree.Reference.bare, hname, hnickname, hsource]
  rfl

end Printing

end AnnotationEdit

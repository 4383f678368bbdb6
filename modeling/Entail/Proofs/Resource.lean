import Mathlib
import Entail.Engine
import Entail.Proofs.Dictionary
import Entail.Proofs.Program
import Entail.Proofs.Text

/-!
# Facts read back

`Resource.display` writes brackets around the IRIs with a colon only. So a name that was written in
brackets and has no colon is shown bare, and what is read then may be an abbreviation, a literal or no
word at all. Every other word lasts (`Resource.Lasting`): the compact form of the resource that it
stands for is the word itself, the word in brackets or an abbreviation (`Resource.display_ofChars`), and
stands for this resource again. A fact of such words reads back as itself and no resource is new
(`Engine.parseTriple_displayTriple`), unless a dot comes last.
-/

namespace Entail

namespace Resource

variable {cs w : List Char} {opening closing : Char}

theorem enclosed?_eq_some_iff {inner : List Char} :
    enclosed? opening closing cs = some inner ↔ cs = opening :: (inner ++ [closing]) := by
  cases cs with
  | nil => simp [enclosed?]
  | cons c rest =>
    rw [enclosed?]
    constructor
    · intro h
      split at h
      · rename_i hends
        rw [← Option.some.inj h, hends.1, List.dropLast_append_getLast? _ hends.2]
      · cases h
    · intro h
      obtain ⟨rfl, rfl⟩ := List.cons_eq_cons.mp h
      rw [if_pos ⟨rfl, List.getLast?_concat⟩, List.dropLast_concat]

/-! ## The four notations -/

theorem ofChars_literal (value : List Char) :
    ofChars ('"' :: (value ++ ['"'])) = literal (String.ofList value) := by
  unfold ofChars
  split
  · rename_i h
    exact absurd h (by simp)
  · rw [enclosed?_eq_some_iff.mpr rfl]

theorem ofChars_brackets (name : List Char) :
    ofChars ('<' :: (name ++ ['>'])) = iri (String.ofList name) := by
  have hquoted : enclosed? '"' '"' ('<' :: (name ++ ['>'])) = none := by
    rw [enclosed?, if_neg (by simp)]
  unfold ofChars
  split
  · rename_i h
    exact absurd h (by simp)
  · rw [hquoted, enclosed?_eq_some_iff.mpr rfl]

/-- Characters are a blank node, a literal, a name in brackets or a bare name. -/
theorem ofChars_cases (cs : List Char) :
    (∃ label, cs = '_' :: ':' :: label) ∨ (∃ value, cs = '"' :: (value ++ ['"'])) ∨
      (∃ name, cs = '<' :: (name ++ ['>'])) ∨ ofChars cs = ofName (String.ofList cs) := by
  cases hq : enclosed? '"' '"' cs with
  | some value => exact .inr (.inl ⟨value, enclosed?_eq_some_iff.mp hq⟩)
  | none =>
    cases hb : enclosed? '<' '>' cs with
    | some name => exact .inr (.inr (.inl ⟨name, enclosed?_eq_some_iff.mp hb⟩))
    | none =>
      unfold ofChars
      split
      · exact .inl ⟨_, rfl⟩
      · rw [hq, hb]
        exact .inr (.inr (.inr rfl))

/-! ## Compact forms -/

/-- The resources whose compact form is an abbreviation. -/
def abbreviated : List Resource := [rdfType, owlSameAs, owlNothing]

theorem display_iri (name : String) : iri name ∈ abbreviated ∨
    ':' ∈ name.toList ∧ (iri name).display = "<" ++ name ++ ">" ∨
    ':' ∉ name.toList ∧ (iri name).display = name := by
  rw [abbreviated, display]
  split
  · simp [*]
  split
  · simp [*]
  split
  · simp [*]
  split
  · rename_i hcolon
    exact .inr (.inl ⟨by simpa using hcolon, rfl⟩)
  · rename_i hcolon
    exact .inr (.inr ⟨by simpa using hcolon, rfl⟩)

theorem ofName_cases (name : String) : ofName name ∈ abbreviated ∨ ofName name = iri name := by
  rw [abbreviated, ofName]
  split
  · simp
  split
  · simp
  split
  · simp
  · exact .inr rfl

/-- If the word is a name in brackets, the name has a colon. -/
def Lasting (w : List Char) : Prop := ∀ name, w = '<' :: (name ++ ['>']) → ':' ∈ name

/-- A lasting word is shown as it is, in brackets or abbreviated. -/
theorem display_ofChars (hl : Lasting w) : ofChars w ∈ abbreviated ∨ (ofChars w).display.toList = w ∨
    (ofChars w).display.toList = '<' :: (w ++ ['>']) ∧ ofChars w = iri (String.ofList w) := by
  rcases ofChars_cases w with ⟨label, rfl⟩ | ⟨value, rfl⟩ | ⟨name, rfl⟩ | hbare
  · refine .inr (.inl ?_)
    simp [ofChars, display]
  · refine .inr (.inl ?_)
    simp [ofChars_literal, display]
  · rw [ofChars_brackets]
    rcases display_iri (String.ofList name) with habbreviated | ⟨-, hd⟩ | ⟨hcolon, -⟩
    · exact .inl habbreviated
    · exact .inr (.inl (by simp [hd]))
    · exact absurd (by simpa using hl name rfl) hcolon
  · rw [hbare]
    rcases ofName_cases (String.ofList w) with habbreviated | hname
    · exact .inl habbreviated
    rw [hname]
    rcases display_iri (String.ofList w) with habbreviated | ⟨-, hd⟩ | ⟨-, hd⟩
    · exact .inl habbreviated
    · exact .inr (.inr ⟨by simp [hd], rfl⟩)
    · exact .inr (.inl (by rw [hd, String.toList_ofList]))

/-- The compact form of `r` is a word that stands for `r`. -/
structure Reread (r : Resource) : Prop where
  isWord : Text.IsWord r.display.toList
  same : ofChars r.display.toList = r

theorem reread_of_mem_abbreviated {r : Resource} (h : r ∈ abbreviated) :
    r.Reread ∧ r.display.toList.getLast? ≠ some '.' := by
  simp only [abbreviated, List.mem_cons, List.not_mem_nil, or_false] at h
  rcases h with rfl | rfl | rfl
  all_goals exact ⟨⟨⟨by decide, Text.unbroken_of_all (by decide)⟩, by decide⟩, by decide⟩

/-- What a lasting word stands for is read back from its compact form. -/
theorem reread_ofChars (hw : Text.IsWord w) (hl : Lasting w) : (ofChars w).Reread := by
  rcases display_ofChars hl with habbreviated | hself | ⟨hbrackets, hname⟩
  · exact (reread_of_mem_abbreviated habbreviated).1
  · exact ⟨by rwa [hself], by rw [hself]⟩
  · refine ⟨⟨hbrackets ▸ List.cons_ne_nil _ _, ?_⟩, by rw [hbrackets, ofChars_brackets, hname]⟩
    intro c hc
    rw [hbrackets, List.mem_cons, List.mem_append, List.mem_singleton] at hc
    rcases hc with rfl | hc | rfl
    · decide
    · exact hw.unbroken c hc
    · decide

/-- The IRI `a` is shown like the abbreviation. -/
example : ofText "<a>" = iri "a" ∧ ofText (ofText "<a>").display = rdfType := by decide

/-- No dot comes last in the compact form of what a lasting word without a last dot stands for. -/
theorem getLast?_display_ofChars (hl : Lasting w) (hdot : w.getLast? ≠ some '.') :
    (ofChars w).display.toList.getLast? ≠ some '.' := by
  rcases display_ofChars hl with habbreviated | hself | ⟨hbrackets, -⟩
  · exact (reread_of_mem_abbreviated habbreviated).2
  · rwa [hself]
  · rw [hbrackets, ← List.cons_append, List.getLast?_concat]
    decide

end Resource

namespace Engine

open Resource (Lasting Reread)

variable {e e' : Engine} {t : Triple} {text : String}

theorem isWord_of_mem_factWords {w : List Char} (h : w ∈ factWords text) : Text.IsWord w :=
  (Text.of_mem_wordChars h).1

theorem intern_eq {w : List Char} (hw : Text.IsWord w) (e : Engine) : intern (String.ofList w) e =
    .ok (e.dictionary.intern (Resource.ofChars w)).1
      { e with dictionary := (e.dictionary.intern (Resource.ofChars w)).2 } := by
  have htext : Resource.ofText (String.ofList w) = Resource.ofChars w := by
    rw [Resource.ofText, String.toList_ofList, Text.trimChars_eq_of_unbroken hw.unbroken]
  rw [← htext]
  rfl

/-- The ids of a fact that was read are those of what its words stand for. -/
theorem map_resource?_of_parseTriple (h : parseTriple text e = .ok t e') :
    t.toList.map e'.dictionary.resource? = (factWords text).map (some <| Resource.ofChars ·) := by
  have hword : ∀ w ∈ factWords text, Text.IsWord w := fun _ => isWord_of_mem_factWords
  rw [parseTriple] at h
  generalize factWords text = words at h hword
  rcases words with _ | ⟨s, _ | ⟨p, _ | ⟨o, _ | ⟨w, ws⟩⟩⟩⟩
  case cons.cons.cons.nil =>
    obtain ⟨_, _, hs, h⟩ := bind_eq_ok.mp h
    obtain ⟨_, _, hp, h⟩ := bind_eq_ok.mp h
    obtain ⟨_, _, ho, h⟩ := bind_eq_ok.mp h
    rw [intern_eq (hword s (by simp))] at hs
    cases hs
    rw [intern_eq (hword p (by simp))] at hp
    cases hp
    rw [intern_eq (hword o (by simp))] at ho
    cases ho
    cases h
    have hids := e.dictionary.intern_spec (Resource.ofChars s)
    have hidp := (e.dictionary.intern (.ofChars s)).2.intern_spec (Resource.ofChars p)
    have hido := ((e.dictionary.intern (.ofChars s)).2.intern (.ofChars p)).2.intern_spec (.ofChars o)
    simp only [Three.toList, List.map_cons, List.map_nil]
    rw [hido.1, Dictionary.resource?_intern hidp.1,
      Dictionary.resource?_intern (Dictionary.resource?_intern hids.1 _)]
  all_goals cases h

/-- A fact is read without a change if its ids are known. -/
theorem parseTriple_of_map_resource?
    (h : t.toList.map e.dictionary.resource? = (factWords text).map (some <| Resource.ofChars ·)) :
    parseTriple text e = .ok t e := by
  have hword : ∀ w ∈ factWords text, Text.IsWord w := fun _ => isWord_of_mem_factWords
  have hknown : ∀ {w id}, Text.IsWord w → e.dictionary.resource? id = some (Resource.ofChars w) →
      intern (String.ofList w) e = .ok id e := fun hw hid => by
    rw [intern_eq hw, Dictionary.intern_of_resource? hid]
  rw [parseTriple]
  generalize factWords text = words at h hword
  rcases words with _ | ⟨s, _ | ⟨p, _ | ⟨o, _ | ⟨w, ws⟩⟩⟩⟩
  case cons.cons.cons.nil =>
    simp only [Three.toList, List.map_cons, List.map_nil, List.cons.injEq, and_true] at h
    refine bind_eq_ok.mpr ⟨_, e, hknown (hword s (by simp)) h.1, ?_⟩
    refine bind_eq_ok.mpr ⟨_, e, hknown (hword p (by simp)) h.2.1, ?_⟩
    exact bind_eq_ok.mpr ⟨_, e, hknown (hword o (by simp)) h.2.2, rfl⟩
  all_goals simp [Three.toList] at h

/-- The words of the text of a fact are the compact forms of what its ids lead to. -/
theorem factWords_displayTriple {rs : List Resource}
    (ht : t.toList.map e.dictionary.resource? = rs.map some) (hr : ∀ r ∈ rs, r.Reread)
    (hdot : ∀ r ∈ rs.getLast?, r.display.toList.getLast? ≠ some '.') :
    factWords (e.dictionary.displayTriple t) = rs.map (·.display.toList) := by
  have hwords : ∀ w ∈ rs.map (·.display.toList), Text.IsWord w :=
    List.forall_mem_map.mpr fun r hmem => (hr r hmem).isWord
  have htext : (e.dictionary.displayTriple t).toList = [' '].intercalate (rs.map (·.display.toList)) := by
    rw [Dictionary.displayTriple, String.toList_intercalate, Dictionary.map_display ht, List.map_map]
    rfl
  cases rs with
  | nil => exact absurd ht (by simp [Three.toList])
  | cons r rs =>
    have hfirm : Text.Firm ([' '].intercalate ((r :: rs).map (·.display.toList))) := by
      refine .intercalate_words (by simp) hwords fun w hw => ?_
      rw [List.getLast?_map, Option.mem_map] at hw
      obtain ⟨q, hq, rfl⟩ := hw
      exact hdot q hq
    rw [factWords, htext, hfirm.trimChars_eq, hfirm.dropDots_eq, Text.wordChars_intercalate hwords]

/-- A fact of lasting words reads back as itself, and no resource is new. -/
theorem parseTriple_displayTriple (h : parseTriple text e = .ok t e')
    (hl : ∀ w ∈ factWords text, Lasting w)
    (hdot : ∀ w ∈ (factWords text).getLast?, w.getLast? ≠ some '.') :
    parseTriple (e'.dictionary.displayTriple t) e' = .ok t e' := by
  have ht := map_resource?_of_parseTriple h
  have hreread : ∀ w ∈ factWords text, (Resource.ofChars w).Reread := fun w hw =>
    Resource.reread_ofChars (isWord_of_mem_factWords hw) (hl w hw)
  have hids : t.toList.map e'.dictionary.resource? = ((factWords text).map Resource.ofChars).map some := by
    rw [ht, List.map_map]
    rfl
  have hwords := factWords_displayTriple hids (List.forall_mem_map.mpr hreread) <| by
    intro r hr
    rw [List.getLast?_map, Option.mem_map] at hr
    obtain ⟨w, hw, rfl⟩ := hr
    exact Resource.getLast?_display_ofChars (hl w (List.mem_of_getLast? hw)) (hdot w hw)
  refine parseTriple_of_map_resource? ?_
  rw [hwords, List.map_map, List.map_map, ht]
  exact List.map_congr_left fun w hw => congrArg some (hreread w hw).same.symm

end Engine

end Entail

import Mathlib.Data.List.Infix
import Entail.Text.Blank

/-!
# Cutting texts apart

A cut at a separator is a cut of what stands before it and of what stands behind it
(`splitOn_append`), and so it is for the words around a blank character (`wordChars_append`). What
does not mind blank characters around a text (`IgnoresBlanks`) makes of the pieces of a joined list
what it makes of the list (`map_splitOn_joined`).
-/

namespace Entail.Text

variable {p : Char → Bool} {c : Char} {cs front back piece w x : List Char} {texts : List (List Char)}

/-! ## Pieces -/

theorem splitOn_ne_nil (p : Char → Bool) (cs : List Char) : splitOn p cs ≠ [] := by
  cases cs with
  | nil => exact List.cons_ne_nil _ _
  | cons c cs =>
    rw [splitOn]
    split
    · exact List.cons_ne_nil _ _
    · split <;> exact List.cons_ne_nil _ _

theorem splitOn_append (hc : p c = true) :
    splitOn p (front ++ c :: back) = splitOn p front ++ splitOn p back := by
  induction front with
  | nil => simp [splitOn, hc]
  | cons a front ih =>
    rw [List.cons_append, splitOn, splitOn, ih]
    split
    · rfl
    · cases h : splitOn p front with
      | nil => exact absurd h (splitOn_ne_nil p front)
      | cons piece rest => rfl

theorem splitOn_eq_singleton (h : ∀ c ∈ cs, p c = false) : splitOn p cs = [cs] := by
  induction cs with
  | nil => rfl
  | cons c cs ih =>
    rw [splitOn, if_neg (by simp [h c List.mem_cons_self]),
      ih fun a ha => h a (List.mem_cons_of_mem c ha)]

/-- A piece stands in the text in one stretch, and has no separators. -/
theorem of_mem_splitOn (h : piece ∈ splitOn p cs) : piece <:+: cs ∧ ∀ c ∈ piece, p c = false := by
  -- the first piece is where the text starts, which the next piece of a longer text needs
  suffices H : ∀ first rest, splitOn p cs = first :: rest →
      (first <+: cs ∧ ∀ c ∈ first, p c = false) ∧
        ∀ piece ∈ rest, piece <:+: cs ∧ ∀ c ∈ piece, p c = false by
    obtain ⟨first, rest, hs⟩ := List.exists_cons_of_ne_nil (splitOn_ne_nil p cs)
    rw [hs, List.mem_cons] at h
    rcases h with rfl | h
    · exact ⟨(H piece rest hs).1.1.isInfix, (H piece rest hs).1.2⟩
    · exact (H first rest hs).2 piece h
  clear h
  induction cs with
  | nil =>
    intro first rest h
    cases h
    simp
  | cons c cs ih =>
    intro first rest h
    obtain ⟨first', rest', hs⟩ := List.exists_cons_of_ne_nil (splitOn_ne_nil p cs)
    obtain ⟨⟨hstart, hfirst⟩, hrest⟩ := ih first' rest' hs
    rw [splitOn, hs] at h
    split at h
    · cases h
      refine ⟨by simp, fun piece hpiece => ?_⟩
      rcases List.mem_cons.mp hpiece with rfl | hpiece
      · exact ⟨List.infix_cons hstart.isInfix, hfirst⟩
      · exact ⟨List.infix_cons (hrest piece hpiece).1, (hrest piece hpiece).2⟩
    · rename_i hc
      cases h
      refine ⟨⟨List.cons_prefix_cons.mpr ⟨rfl, hstart⟩, fun a ha => ?_⟩, fun piece hpiece =>
        ⟨List.infix_cons (hrest piece hpiece).1, (hrest piece hpiece).2⟩⟩
      rcases List.mem_cons.mp ha with rfl | ha
      · simpa using hc
      · exact hfirst a ha

/-! ## Words -/

/-- A text that is one word. -/
structure IsWord (w : List Char) : Prop where
  ne_nil : w ≠ []
  unbroken : ∀ c ∈ w, isBlank c = false

theorem unbroken_of_all (h : w.all (!isBlank ·) = true) : ∀ c ∈ w, isBlank c = false := by
  simpa using h

theorem wordChars_append (hc : isBlank c = true) :
    wordChars (front ++ c :: back) = wordChars front ++ wordChars back := by
  rw [wordChars, splitOn_append hc, List.filter_append, wordChars, wordChars]

theorem wordChars_eq_singleton (h : IsWord w) : wordChars w = [w] := by
  rw [wordChars, splitOn_eq_singleton h.unbroken]
  simp [h.ne_nil]

theorem of_mem_wordChars (h : w ∈ wordChars cs) : IsWord w ∧ w <:+: cs := by
  rw [wordChars, List.mem_filter] at h
  obtain ⟨hwithin, hfree⟩ := of_mem_splitOn h.1
  exact ⟨⟨by simpa using h.2, hfree⟩, hwithin⟩

theorem wordChars_eq_nil (h : ∀ c ∈ cs, isBlank c = true) : wordChars cs = [] := by
  induction cs with
  | nil => rfl
  | cons c cs ih =>
    rw [← List.nil_append (c :: cs), wordChars_append (h c List.mem_cons_self),
      ih fun a ha => h a (List.mem_cons_of_mem c ha)]
    rfl

/-- The words of a line of words. -/
theorem wordChars_intercalate (h : ∀ w ∈ texts, IsWord w) :
    wordChars ([' '].intercalate texts) = texts := by
  induction texts with
  | nil => rfl
  | cons w texts ih =>
    have hw := wordChars_eq_singleton (h w List.mem_cons_self)
    cases texts with
    | nil => rw [List.intercalate_singleton, hw]
    | cons v texts =>
      rw [List.intercalate_cons_cons, List.append_assoc, List.singleton_append,
        wordChars_append (by decide), hw, ih fun u hu => h u (List.mem_cons_of_mem w hu)]
      rfl

/-! ## Blank characters around a text -/

/-- Blank characters at the ends of its argument make no difference to `f`. -/
def IgnoresBlanks {β : Type*} (f : List Char → β) : Prop :=
  ∀ front cs back, (∀ c ∈ front, isBlank c = true) → (∀ c ∈ back, isBlank c = true) →
    f (front ++ cs ++ back) = f cs

theorem ignoresBlanks_wordChars : IgnoresBlanks wordChars := by
  have hfront : ∀ front cs, (∀ c ∈ front, isBlank c = true) →
      wordChars (front ++ cs) = wordChars cs := by
    intro front cs h
    induction front with
    | nil => rfl
    | cons c front ih =>
      rw [List.cons_append, ← List.nil_append (c :: (front ++ cs)),
        wordChars_append (h c List.mem_cons_self), ih fun a ha => h a (List.mem_cons_of_mem c ha)]
      rfl
  intro front cs back hf hb
  rw [List.append_assoc, hfront front _ hf]
  cases back with
  | nil => rw [List.append_nil]
  | cons c back =>
    rw [wordChars_append (hb c List.mem_cons_self),
      wordChars_eq_nil fun a ha => hb a (List.mem_cons_of_mem c ha), List.append_nil]

theorem dropEndWhile_append (h : ∀ c ∈ back, p c = true) :
    dropEndWhile p (cs ++ back) = dropEndWhile p cs := by
  have hrev : ∀ c ∈ back.reverse, p c = true := fun c hc => h c (List.mem_reverse.mp hc)
  rw [dropEndWhile, List.reverse_append, List.dropWhile_append_of_pos hrev, dropEndWhile]

theorem ignoresBlanks_trimChars : IgnoresBlanks trimChars := by
  intro front cs back hf hb
  rw [trimChars, List.append_assoc, List.dropWhile_append_of_pos hf, List.dropWhile_append, trimChars]
  split
  · rename_i hcs
    rw [List.isEmpty_iff] at hcs
    rw [hcs, ← List.append_nil back, List.dropWhile_append_of_pos hb]
    rfl
  · exact dropEndWhile_append hb

/-- Nothing is dropped before a last character that is to stay. -/
theorem dropEndWhile_eq_self (h : ∀ c ∈ cs.getLast?, p c = false) : dropEndWhile p cs = cs := by
  rw [dropEndWhile]
  cases hr : cs.reverse with
  | nil => rw [List.reverse_eq_nil_iff.mp hr]; rfl
  | cons c rest =>
    have hc : p c = false := h c (by rw [List.getLast?_eq_head?_reverse, hr]; rfl)
    rw [List.dropWhile_cons_of_neg (by simp [hc]), ← hr, List.reverse_reverse]

/-- Nothing is trimmed from a text whose ends are not blank. -/
theorem trimChars_eq_self (hf : ∀ c ∈ cs.head?, isBlank c = false)
    (hl : ∀ c ∈ cs.getLast?, isBlank c = false) : trimChars cs = cs := by
  rw [trimChars]
  cases cs with
  | nil => rfl
  | cons c cs =>
    rw [List.dropWhile_cons_of_neg (by simp [hf c rfl])]
    exact dropEndWhile_eq_self hl

theorem trimChars_eq_of_unbroken (h : ∀ c ∈ cs, isBlank c = false) : trimChars cs = cs :=
  trimChars_eq_self (fun c hc => h c (List.mem_of_head? hc)) fun c hc => h c (List.mem_of_getLast? hc)

theorem mem_of_mem_trimChars (h : c ∈ trimChars cs) : c ∈ cs := by
  rw [trimChars, dropEndWhile, List.mem_reverse] at h
  exact (List.dropWhile_suffix _).subset
    (List.mem_reverse.mp ((List.dropWhile_suffix _).subset h))

/-! ## Joined lists -/

/-- The pieces of a joined list are its elements, up to blank characters around them. -/
theorem map_splitOn_joined {β : Type*} {f : List Char → β} (hf : IgnoresBlanks f)
    (p : Char → Bool) (sep : Char)
    (front back : List Char) (hsep : p sep = true) (hblank : ∀ c, isBlank c = true → p c = false)
    (h : ∀ text ∈ texts, ∀ c ∈ text, p c = false) (hne : texts ≠ [])
    (hfront : ∀ c ∈ front, isBlank c = true) (hback : ∀ c ∈ back, isBlank c = true) :
    (splitOn p (front ++ [' ', sep, ' '].intercalate texts ++ back)).map f = texts.map f := by
  induction texts generalizing front with
  | nil => exact absurd rfl hne
  | cons text texts ih =>
    have htext := h text List.mem_cons_self
    cases texts with
    | nil =>
      rw [List.intercalate_singleton, splitOn_eq_singleton, List.map_singleton, List.map_singleton,
        hf front text back hfront hback]
      simp only [List.mem_append]
      rintro c ((hc | hc) | hc)
      · exact hblank c (hfront c hc)
      · exact htext c hc
      · exact hblank c (hback c hc)
    | cons next texts =>
      have hspace : ∀ c ∈ [' '], isBlank c = true := List.forall_mem_singleton.mpr (by decide)
      have hpiece : ∀ c ∈ front ++ text ++ [' '], p c = false := by
        simp only [List.mem_append]
        rintro c ((hc | hc) | hc)
        · exact hblank c (hfront c hc)
        · exact htext c hc
        · exact hblank c (hspace c hc)
      rw [List.intercalate_cons_cons,
        show front ++ (text ++ [' ', sep, ' '] ++ [' ', sep, ' '].intercalate (next :: texts)) ++ back =
          (front ++ text ++ [' ']) ++
            sep :: ([' '] ++ [' ', sep, ' '].intercalate (next :: texts) ++ back)
          by simp,
        splitOn_append hsep, splitOn_eq_singleton hpiece, List.map_append,
        ih [' '] (fun u hu => h u (List.mem_cons_of_mem _ hu)) (List.cons_ne_nil _ _) hspace,
        List.map_singleton, hf front text [' '] hfront hspace]
      rfl

theorem notMem_intercalate {sep : List Char} (hsep : c ∉ sep) (h : ∀ text ∈ texts, c ∉ text) :
    c ∉ sep.intercalate texts := by
  induction texts with
  | nil => exact List.not_mem_nil
  | cons text texts ih =>
    have htext := h text List.mem_cons_self
    cases texts with
    | nil => rwa [List.intercalate_singleton]
    | cons next texts =>
      rw [List.intercalate_cons_cons, List.mem_append, List.mem_append]
      exact fun hm => hm.elim (·.elim htext hsep) (ih fun t ht => h t (List.mem_cons_of_mem _ ht))

/-- A text that can stand at the end of a line: it starts and ends with characters that are not blank,
and no dot comes last. -/
structure Firm (cs : List Char) : Prop where
  ne_nil : cs ≠ []
  first : ∀ c ∈ cs.head?, isBlank c = false
  last : ∀ c ∈ cs.getLast?, isBlank c = false ∧ c ≠ '.'

namespace Firm

theorem of_isWord (h : IsWord w) (hdot : w.getLast? ≠ some '.') : Firm w :=
  ⟨h.ne_nil, fun c hc => h.unbroken c (List.mem_of_head? hc), fun c hc =>
    ⟨h.unbroken c (List.mem_of_getLast? hc), fun heq => hdot (heq ▸ hc)⟩⟩

/-- What stands before a firm text may end with any character. -/
theorem append_append_of_head? (hne : front ≠ []) (hf : ∀ c ∈ front.head?, isBlank c = false)
    (cs : List Char) (hb : Firm back) : Firm (front ++ cs ++ back) := by
  refine ⟨by simp [hb.ne_nil], fun c hc => hf c ?_, fun c hc => hb.last c ?_⟩
  · rwa [List.append_assoc, List.head?_append_of_ne_nil _ hne] at hc
  · rwa [List.getLast?_append_of_ne_nil _ hb.ne_nil] at hc

theorem append_append (hf : Firm front) (cs : List Char) (hb : Firm back) : Firm (front ++ cs ++ back) :=
  append_append_of_head? hf.ne_nil hf.first cs hb

theorem intercalate {sep : List Char} (hne : texts ≠ []) (h : ∀ text ∈ texts, Firm text) :
    Firm (sep.intercalate texts) := by
  induction texts with
  | nil => exact absurd rfl hne
  | cons text texts ih =>
    have htext := h text List.mem_cons_self
    cases texts with
    | nil => rwa [List.intercalate_singleton]
    | cons next texts =>
      rw [List.intercalate_cons_cons]
      exact htext.append_append sep
        (ih (List.cons_ne_nil _ _) fun t ht => h t (List.mem_cons_of_mem _ ht))

/-- A line of words is firm if no dot comes last. -/
theorem intercalate_words (hne : texts ≠ []) (h : ∀ w ∈ texts, IsWord w)
    (hdot : ∀ w ∈ texts.getLast?, w.getLast? ≠ some '.') : Firm ([' '].intercalate texts) := by
  induction texts with
  | nil => exact absurd rfl hne
  | cons w texts ih =>
    have hw := h w List.mem_cons_self
    cases texts with
    | nil =>
      rw [List.intercalate_singleton]
      exact of_isWord hw (hdot w rfl)
    | cons next texts =>
      rw [List.getLast?_cons_cons] at hdot
      rw [List.intercalate_cons_cons]
      exact append_append_of_head? hw.ne_nil (fun c hc => hw.unbroken c (List.mem_of_head? hc)) [' ']
        (ih (List.cons_ne_nil _ _) (fun v hv => h v (List.mem_cons_of_mem _ hv)) hdot)

theorem trimChars_eq (h : Firm cs) : trimChars cs = cs :=
  trimChars_eq_self h.first fun c hc => (h.last c hc).1

theorem dropDots_eq (h : Firm cs) : dropEndWhile (· == '.') cs = cs :=
  dropEndWhile_eq_self fun c hc => by simpa using (h.last c hc).2

end Firm

/-- What stands in a text in one stretch and lacks a character stands before or behind it. -/
theorem infix_of_infix_append_cons (h : x <:+: front ++ c :: back) (hc : c ∉ x) :
    x <:+: front ∨ x <:+: back := by
  have hstart : ∀ {y : List Char}, c ∉ y → y <+: c :: back → y = [] := by
    intro y hy h
    cases y with
    | nil => rfl
    | cons a y => exact absurd (by simp [(List.cons_prefix_cons.mp h).1]) hy
  rcases List.infix_append_iff.mp h with h | h | ⟨l₁, l₂, rfl, h₁, h₂⟩
  · exact .inl h
  · rcases List.infix_cons_iff.mp h with h | h
    · rw [hstart hc h]
      exact .inr List.nil_infix
    · exact .inr h
  · rw [hstart (fun hm => hc (List.mem_append_right _ hm)) h₂, List.append_nil]
    exact .inl h₁.isInfix

/-- What stands in a joined list in one stretch and shares no character with what joins it stands in
an element. -/
theorem infix_of_infix_intercalate {sep : List Char} (hx : x ≠ []) (hsep : sep ≠ [])
    (hdisjoint : ∀ c ∈ sep, c ∉ x) (h : x <:+: sep.intercalate texts) : ∃ text ∈ texts, x <:+: text := by
  have hpast : ∀ {sep : List Char}, (∀ c ∈ sep, c ∉ x) → sep ≠ [] → ∀ front {back : List Char},
      x <:+: front ++ sep ++ back → x <:+: front ∨ x <:+: back := by
    intro sep hsep hne
    induction sep with
    | nil => exact absurd rfl hne
    | cons c sep ih =>
      intro front back h
      rw [List.append_assoc, List.cons_append] at h
      rcases infix_of_infix_append_cons h (hsep c List.mem_cons_self) with h | h
      · exact .inl h
      · cases sep with
        | nil => exact .inr h
        | cons c' sep =>
          have hrest := fun a ha => hsep a (List.mem_cons_of_mem c ha)
          rcases ih hrest (List.cons_ne_nil _ _) [] h with h | h
          · exact absurd (List.infix_nil.mp h) hx
          · exact .inr h
  induction texts with
  | nil => exact absurd (List.infix_nil.mp h) hx
  | cons text texts ih =>
    cases texts with
    | nil =>
      rw [List.intercalate_singleton] at h
      exact ⟨text, List.mem_cons_self, h⟩
    | cons next texts =>
      rw [List.intercalate_cons_cons] at h
      rcases hpast hdisjoint hsep text h with h | h
      · exact ⟨text, List.mem_cons_self, h⟩
      · obtain ⟨u, hu, h⟩ := ih h
        exact ⟨u, List.mem_cons_of_mem _ hu, h⟩

end Entail.Text

import Mathlib
import Entail.Proofs.Rule.Acceptance

/-!
# Reading what was written

A rule that was read is written as the words of its terms, with separators that have blanks around them
(`Rule.display_eq`). Reading this text goes through the same terms, though the variables may be met in
another order, since the negated literals were moved behind the positive ones. What is read back is
therefore the rule with its variables renumbered (`Rule.Renumbers`), provided that the compact form of
each constant is read as that constant and as one word (`Rule.ReadsBack`, `Rule.exists_parse_display`).
-/

namespace Entail

variable {ρ : Nat → Nat}

/-! ## Numbering variables anew -/

/-- A term with another number for its variable. -/
def Term.renumber (ρ : Nat → Nat) : Term → Term
  | .var v => .var (ρ v)
  | .const id => .const id

/-- An atom with other numbers for its variables. -/
def Atom.renumber (ρ : Nat → Nat) (a : Atom) : Atom := a.map (Term.renumber ρ)

/-- A literal with other numbers for its variables. -/
def Literal.renumber (ρ : Nat → Nat) : Literal → Literal
  | .positive a => .positive (a.renumber ρ)
  | .negative as => .negative (as.map (Atom.renumber ρ))

theorem Term.renumber_eq_var_iff {t : Term} {v : Nat} :
    t.renumber ρ = .var v ↔ ∃ w, t = .var w ∧ ρ w = v := by
  cases t <;> simp [renumber]

namespace Atom

theorem toList_renumber (a : Atom) :
    Three.toList (a.renumber ρ) = (Three.toList a).map (Term.renumber ρ) := rfl

theorem mem_vars_renumber {a : Atom} {v : Nat} : v ∈ (a.renumber ρ).vars ↔ ∃ w ∈ a.vars, ρ w = v := by
  simp only [mem_vars_iff, toList_renumber, List.mem_map, Term.renumber_eq_var_iff]
  constructor
  · rintro ⟨_, ht, w, rfl, hw⟩
    exact ⟨w, ht, hw⟩
  · rintro ⟨w, ht, hw⟩
    exact ⟨.var w, ht, w, rfl, hw⟩

end Atom

namespace Literal

@[simp] theorem isPositive_renumber (l : Literal) : (l.renumber ρ).isPositive = l.isPositive := by
  cases l <;> rfl

theorem atoms_renumber (l : Literal) : (l.renumber ρ).atoms = l.atoms.map (Atom.renumber ρ) := by
  cases l <;> rfl

theorem mem_vars_renumber {l : Literal} {v : Nat} :
    v ∈ (l.renumber ρ).vars ↔ ∃ w ∈ l.vars, ρ w = v := by
  simp only [vars, atoms_renumber, List.mem_flatMap, List.mem_map]
  constructor
  · rintro ⟨_, ⟨a, ha, rfl⟩, hv⟩
    obtain ⟨w, hw, rfl⟩ := Atom.mem_vars_renumber.mp hv
    exact ⟨w, ⟨a, ha, hw⟩, rfl⟩
  · rintro ⟨w, ⟨a, ha, hw⟩, rfl⟩
    exact ⟨_, ⟨a, ha, rfl⟩, Atom.mem_vars_renumber.mpr ⟨w, hw, rfl⟩⟩

theorem mem_terms_renumber {l : Literal} {t : Term} :
    t ∈ (l.renumber ρ).terms ↔ ∃ u ∈ l.terms, u.renumber ρ = t := by
  simp only [terms, atoms_renumber, List.mem_flatMap, List.mem_map]
  constructor
  · rintro ⟨_, ⟨a, ha, rfl⟩, ht⟩
    rw [Atom.toList_renumber, List.mem_map] at ht
    obtain ⟨u, hu, rfl⟩ := ht
    exact ⟨u, ⟨a, ha, hu⟩, rfl⟩
  · rintro ⟨u, ⟨a, ha, hu⟩, rfl⟩
    exact ⟨_, ⟨a, ha, rfl⟩, List.mem_map.mpr ⟨u, hu, rfl⟩⟩

end Literal

namespace Rule

/-- `r'` is `r` with its variables renumbered; they keep their names. -/
structure Renumbers (ρ : Nat → Nat) (r r' : Rule) : Prop where
  head : r'.head = r.head.map (Atom.renumber ρ)
  body : r'.body = r.body.map (Literal.renumber ρ)
  level : r'.level = r.level
  bijective : Set.BijOn ρ (Set.Iio r.names.length) (Set.Iio r'.names.length)
  names : ∀ v < r.names.length, r'.names[ρ v]? = r.names[v]?

/-- Numbers that differ for different variables leave a rule acceptable. -/
theorem Acceptable.renumber {head : List Atom} {body : List Literal} (h : Acceptable head body)
    (hρ : Set.InjOn ρ {v | ∃ l ∈ body, v ∈ l.vars}) :
    Acceptable (head.map (Atom.renumber ρ)) (body.map (Literal.renumber ρ)) := by
  have hbound : ∀ v, (∃ b, .positive b ∈ body ∧ v ∈ b.vars) →
      ∃ b, .positive b ∈ body.map (Literal.renumber ρ) ∧ ρ v ∈ b.vars := fun v ⟨b, hb, hv⟩ =>
    ⟨b.renumber ρ, List.mem_map.mpr ⟨_, hb, rfl⟩, Atom.mem_vars_renumber.mpr ⟨v, hv, rfl⟩⟩
  refine ⟨by simpa using h.head_ne_nil, fun a' ha' v' hv' => ?_, fun place atoms' hl' v' hv' => ?_⟩
  · obtain ⟨a, ha, rfl⟩ := List.mem_map.mp ha'
    obtain ⟨v, hv, rfl⟩ := Atom.mem_vars_renumber.mp hv'
    exact hbound v (h.head_bound a ha v hv)
  · rw [List.getElem?_map, Option.map_eq_some_iff] at hl'
    obtain ⟨l, hl, heq⟩ := hl'
    rw [← heq] at hv'
    obtain ⟨v, hv, rfl⟩ := Literal.mem_vars_renumber.mp hv'
    cases l with
    | positive a => cases heq
    | negative atoms =>
      rcases h.bound_or_local place atoms hl v hv with hb | hlocal
      · exact .inl (hbound v hb)
      · refine .inr fun other l'' hother hmem => ?_
        rw [List.getElem?_map, Option.map_eq_some_iff] at hother
        obtain ⟨l', hl', rfl⟩ := hother
        obtain ⟨w, hw, hwv⟩ := Literal.mem_vars_renumber.mp hmem
        have heq : w = v := hρ ⟨l', List.mem_of_getElem? hl', hw⟩ ⟨_, List.mem_of_getElem? hl, hv⟩ hwv
        exact hlocal other l' hl' (heq ▸ hw)

theorem negativesLast_eq_self (body : List Literal)
    (h : body.Pairwise fun l l' => l.isPositive = false → l'.isPositive = false) :
    negativesLast body = body := by
  induction body with
  | nil => rfl
  | cons l body ih =>
    rw [List.pairwise_cons] at h
    rw [negativesLast] at ih ⊢
    cases hl : l.isPositive with
    | true => simp [hl, ih h.2]
    | false =>
      have hall : ∀ l' ∈ body, l'.isPositive = false := fun l' hl' => h.1 l' hl' hl
      rw [List.filter_eq_nil_iff.mpr (by simpa [hl] using hall), List.nil_append,
        List.filter_eq_self.mpr (by simpa [hl] using hall)]

/-! ## What is written -/

section Lines

variable (d : Dictionary) (names : List String)

/-- The word of a term. -/
def word : Term → List Char
  | .var v => '?' :: ((names[v]?).getD "").toList
  | .const id => (d.display id).toList

/-- The words of an atom. -/
def atomLine (a : Atom) : List Char := [' '].intercalate (a.toList.map (word d names))

/-- A literal, atom by atom. -/
def literalLine : Literal → List Char
  | .positive a => atomLine d names a
  | .negative as => ['n', 'o', 't', ' '] ++ [' ', '&', ' '].intercalate (as.map (atomLine d names))

/-- A head, atom by atom. -/
def headLine (head : List Atom) : List Char := [' ', ',', ' '].intercalate (head.map (atomLine d names))

/-- A body, literal by literal. -/
def bodyLine (body : List Literal) : List Char :=
  [' ', ',', ' '].intercalate (body.map (literalLine d names))

end Lines

variable {d : Dictionary} {names names' : List String} {α β : Type}

theorem mapM_eq_some {f : α → Option β} {g : α → β} {l : List α} (h : ∀ a ∈ l, f a = some (g a)) :
    l.mapM f = some (l.map g) := by
  induction l with
  | nil => rfl
  | cons a l ih =>
    rw [List.mapM_cons, h a List.mem_cons_self, ih fun b hb => h b (List.mem_cons_of_mem a hb)]
    rfl

theorem intercalate_map_ofList (sep : String) (f : α → List Char) (l : List α) :
    sep.intercalate (l.map fun a => String.ofList (f a)) =
      String.ofList (sep.toList.intercalate (l.map f)) := by
  rw [← String.toList_inj, String.toList_intercalate, String.toList_ofList, List.map_map]
  simp [Function.comp_def]

theorem displayTerm_eq {t : Term} (h : ∀ v, t = .var v → v < names.length) :
    displayTerm d names t = some (String.ofList (word d names t)) := by
  cases t with
  | var v =>
    rw [displayTerm, word, List.getElem?_eq_getElem (h v rfl), Option.map_some, Option.getD_some,
      String.ofList_cons, String.ofList_toList]
    rfl
  | const id => rw [displayTerm, word, String.ofList_toList]

theorem displayAtom_eq {a : Atom} (h : ∀ v ∈ a.vars, v < names.length) :
    displayAtom d names a = some (String.ofList (atomLine d names a)) := by
  rw [displayAtom, mapM_eq_some fun t ht => displayTerm_eq fun v hv =>
    h v (Atom.mem_vars_iff.mpr (hv ▸ ht)), Option.map_some, intercalate_map_ofList]
  rfl

theorem displayLiteral_eq {l : Literal} (h : ∀ a ∈ l.atoms, ∀ v ∈ a.vars, v < names.length) :
    displayLiteral d names l = some (String.ofList (literalLine d names l)) := by
  cases l with
  | positive a => exact displayAtom_eq (h a (List.mem_singleton_self a))
  | negative as =>
    have has : ∀ a ∈ as, displayAtom d names a = _ := fun a ha => displayAtom_eq (h a ha)
    rw [displayLiteral, mapM_eq_some has, Option.map_some, intercalate_map_ofList, literalLine,
      String.ofList_append]
    rfl

/-- The text of a rule, line by line. -/
theorem display_eq {r : Rule} (h : r.Safe) : r.display d =
    some (String.ofList (headLine d r.names r.head ++ " :- ".toList ++ bodyLine d r.names r.body)) := by
  have hhead : ∀ a ∈ r.head, displayAtom d r.names a = _ := fun a ha =>
    displayAtom_eq (h.named a (List.mem_append_left _ ha))
  have hbody : ∀ l ∈ r.body, displayLiteral d r.names l = _ := fun l hl => displayLiteral_eq fun a ha =>
    h.named a (List.mem_append_right _ (List.mem_flatMap.mpr ⟨l, hl, ha⟩))
  rw [Rule.display, mapM_eq_some hhead, mapM_eq_some hbody]
  simp only [Option.pure_def, Option.bind_eq_bind, Option.bind_some, intercalate_map_ofList,
    String.ofList_append, String.ofList_toList, headLine, bodyLine]
  rfl

/-! ## What is read back -/

/-- The compact form of a constant is read as that constant, and none of its characters can be taken
for something else. -/
structure ReadsBack (d : Dictionary) (id : Nat) : Prop where
  same : d.resource? id = some (Resource.ofText (d.display id))
  noBlank : ∀ c ∈ (d.display id).toList, Text.isBlank c = false
  noComma : ',' ∉ (d.display id).toList
  noAmpersand : '&' ∉ (d.display id).toList
  noArrow : ¬ [':', '-'] <:+: (d.display id).toList
  noVariable : (d.display id).toList.head? ≠ some '?'
  noDot : (d.display id).toList.getLast? ≠ some '.'
  noNegation : d.display id ≠ "not"

/-- The numbers that variables get when their names are met in the order of `names'`. -/
def renumbering (names names' : List String) (v : Nat) : Nat := names'.idxOf ((names[v]?).getD "")

/-- The rule of level 0 whose variables have the numbers that their names have among `names'`. -/
def withNames (r : Rule) (names' : List String) : Rule where
  head := r.head.map (Atom.renumber (renumbering r.names names'))
  body := r.body.map (Literal.renumber (renumbering r.names names'))
  level := 0
  names := names'

/-- Whatever was met before, `x` reads a result that depends only on the numbers of the variables, and
it finds no new resource. -/
def Restores (d : Dictionary) (names : List String) (x : Reader α) (result : (Nat → Nat) → α) : Prop :=
  ∀ s, s.dictionary = d → WP x s fun a s' => s'.dictionary = d ∧ s.names <+: s'.names ∧
    ∀ names', s'.names <+: names' → a = result (renumbering names names')

theorem readVariable_restores {v : Nat} {name : String} (h : names[v]? = some name) :
    Restores d names (readVariable name) fun ρ => .var (ρ v) := by
  intro s hs
  have hnumber : ∀ names', renumbering names names' v = names'.idxOf name := fun names' => by
    rw [renumbering, h, Option.getD_some]
  rw [readVariable, WP.bind_iff, WP.get_iff]
  cases hi : s.names.idxOf? name with
  | some i =>
    obtain ⟨hlt, hname, -⟩ := List.idxOf?_eq_some_iff.mp hi
    refine WP.pure_iff.mpr ⟨hs, List.prefix_rfl, ?_⟩
    rintro _ ⟨rest, rfl⟩
    dsimp only
    rw [hnumber, List.idxOf_append_of_mem (hname ▸ List.getElem_mem hlt), List.idxOf_eq_getD_idxOf?, hi,
      Option.getD_some]
  | none =>
    have hnew : name ∉ s.names := List.idxOf?_eq_none_iff.mp hi
    refine WP.bind_iff.mpr (WP.of_eq rfl (WP.pure_iff.mpr ⟨hs, List.prefix_append .., ?_⟩))
    rintro _ ⟨rest, rfl⟩
    dsimp only
    rw [hnumber, List.idxOf_append_of_mem (List.mem_append_right _ (List.mem_singleton_self name)),
      List.idxOf_append_of_notMem hnew, List.idxOf_cons_self, Nat.add_zero]

theorem readConstant_restores {id : Nat} (h : ReadsBack d id) :
    Restores d names (readConstant (d.display id).toList) fun _ => .const id := by
  rintro s rfl
  have hsame := h.same
  rw [Resource.ofText, Text.trimChars_eq_of_unbroken h.noBlank] at hsame
  rw [readConstant, WP.modifyGet_iff]
  rw [Dictionary.intern_of_resource? hsame]
  exact ⟨rfl, List.prefix_rfl, fun _ _ => rfl⟩

theorem readTerm_restores {t : Term} (hvar : ∀ v, t = .var v → v < names.length)
    (hconst : ∀ id, t = .const id → ReadsBack d id) :
    Restores d names (readTerm (word d names t)) t.renumber := by
  cases t with
  | var v =>
    have hname := List.getElem?_eq_getElem (hvar v rfl)
    rw [word, readTerm, hname, Option.getD_some, String.ofList_toList]
    exact readVariable_restores hname
  | const id =>
    have hid := hconst id rfl
    rw [word]
    unfold readTerm
    split
    · rename_i heq
      exact absurd (by rw [heq]; rfl) hid.noVariable
    · exact readConstant_restores hid

theorem mapM_restores {f : α → Reader β} (renumber : (Nat → Nat) → α → β) {l : List α}
    (h : ∀ a ∈ l, Restores d names (f a) fun ρ => renumber ρ a) :
    Restores d names (l.mapM f) fun ρ => l.map (renumber ρ) := by
  induction l with
  | nil =>
    intro s hs
    rw [List.mapM_nil, WP.pure_iff]
    exact ⟨hs, List.prefix_rfl, fun _ _ => rfl⟩
  | cons a l ih =>
    intro s hs
    rw [List.mapM_cons, WP.bind_iff]
    refine (h a List.mem_cons_self s hs).mono fun b s₁ ⟨hs₁, hp₁, hb⟩ => WP.bind_iff.mpr ?_
    refine (ih (fun c hc => h c (List.mem_cons_of_mem a hc)) s₁ hs₁).mono fun bs s₂ ⟨hs₂, hp₂, hbs⟩ =>
      WP.pure_iff.mpr ⟨hs₂, hp₁.trans hp₂, fun names' hn => ?_⟩
    rw [hb names' (hp₂.trans hn), hbs names' hn]
    rfl

theorem Restores.map {x : Reader α} {result : (Nat → Nat) → α} (h : Restores d names x result)
    (f : α → β) :
    Restores d names (f <$> x) fun ρ => f (result ρ) := fun s hs =>
  WP.map_iff.mpr ((h s hs).mono fun _ _ ⟨hs', hp, ha⟩ => ⟨hs', hp, fun names' hn => by rw [ha names' hn]⟩)

/-- The word of a term is of the class `ok`, is no start of a negation, can end a line, and is read as
the term. -/
structure Legible (d : Dictionary) (names : List String) (ok : List Char → Prop) (t : Term) : Prop where
  ok : ok (word d names t)
  affirms : word d names t ≠ ['n', 'o', 't']
  firm : Text.Firm (word d names t)
  restores : Restores d names (readTerm (word d names t)) t.renumber

theorem Legible.mono {ok ok' : List Char → Prop} {t : Term} (h : Legible d names ok t)
    (hok : ∀ w, ok w → ok' w) : Legible d names ok' t :=
  ⟨hok _ h.ok, h.affirms, h.firm, h.restores⟩

/-- What is known of a term makes it legible, if its compact form reads back. -/
theorem Reading.Knows.legible {s : Reading} {ok : List Char → Prop} {t : Term} (h : s.Knows ok t)
    (hok : ∀ w, ok w → Text.IsWord w)
    (hconst : ∀ id, t = .const id →
      ok (s.dictionary.display id).toList ∧ ReadsBack s.dictionary id)
    (hnames : ∀ name ∈ s.names, name.toList.getLast? ≠ some '.') : Legible s.dictionary s.names ok t := by
  have hrestores : Restores s.dictionary s.names (readTerm (word s.dictionary s.names t)) t.renumber :=
    readTerm_restores (fun v hv => (hv ▸ h).lt_length) fun id hid => (hconst id hid).2
  cases t with
  | var v =>
    obtain ⟨name, hname, hw⟩ := h
    have hword : word s.dictionary s.names (.var v) = '?' :: name.toList := by
      rw [word, hname, Option.getD_some]
    rw [← hword] at hw
    refine ⟨hw, by simp [hword], .of_isWord (hok _ hw) ?_, hrestores⟩
    rw [hword, List.getLast?_cons]
    intro hdot
    cases hl : name.toList.getLast? with
    | none => simp [hl] at hdot
    | some c =>
      rw [hl, Option.getD_some] at hdot
      exact hnames name (List.mem_of_getElem? hname) (hl.trans hdot)
  | const id =>
    obtain ⟨hw, hid⟩ := hconst id rfl
    refine ⟨hw, fun heq => hid.noNegation ?_, .of_isWord (hok _ hw) hid.noDot, hrestores⟩
    rw [← String.toList_inj]
    exact heq

/-! ## Atoms -/

theorem readAtom_restores {a : Atom} (h : ∀ t ∈ a.toList, Legible d names Text.IsWord t) :
    Restores d names (readAtom (atomLine d names a)) a.renumber := by
  have hwords : Text.wordChars (atomLine d names a) = a.toList.map (word d names) :=
    Text.wordChars_intercalate fun w hw => by
      obtain ⟨t, ht, rfl⟩ := List.mem_map.mp hw
      exact (h t ht).ok
  have hterm := fun t ht => (h t ht).restores
  intro s hs
  rw [readAtom, hwords]
  simp only [Three.toList, List.map_cons, List.map_nil]
  rw [WP.bind_iff]
  refine (hterm a.subject (by simp [Three.toList]) s hs).mono fun t₁ s₁ h₁ => WP.bind_iff.mpr ?_
  obtain ⟨hs₁, hp₁, ht₁⟩ := h₁
  refine (hterm a.predicate (by simp [Three.toList]) s₁ hs₁).mono fun t₂ s₂ h₂ => WP.bind_iff.mpr ?_
  obtain ⟨hs₂, hp₂, ht₂⟩ := h₂
  refine (hterm a.object (by simp [Three.toList]) s₂ hs₂).mono fun t₃ s₃ h₃ => WP.pure_iff.mpr ?_
  obtain ⟨hs₃, hp₃, ht₃⟩ := h₃
  refine ⟨hs₃, hp₁.trans (hp₂.trans hp₃), fun names' hn => ?_⟩
  rw [ht₁ names' (hp₂.trans (hp₃.trans hn)), ht₂ names' (hp₃.trans hn), ht₃ names' hn]
  rfl

theorem firm_atomLine {a : Atom} {ok : List Char → Prop} (h : ∀ t ∈ a.toList, Legible d names ok t) :
    Text.Firm (atomLine d names a) :=
  .intercalate (by simp [Three.toList]) fun w hw => by
    obtain ⟨t, ht, rfl⟩ := List.mem_map.mp hw
    exact (h t ht).firm

theorem notMem_atomLine {a : Atom} {c : Char} (hc : c ≠ ' ') (h : ∀ t ∈ a.toList, c ∉ word d names t) :
    c ∉ atomLine d names a :=
  Text.notMem_intercalate (by simpa using hc) fun w hw => by
    obtain ⟨t, ht, rfl⟩ := List.mem_map.mp hw
    exact h t ht

/-- Blank characters around an atom do not count. -/
theorem ignoresBlanks_readAtom : Text.IgnoresBlanks readAtom := by
  intro front cs back hf hb
  unfold readAtom
  rw [Text.ignoresBlanks_wordChars front cs back hf hb, Text.ignoresBlanks_trimChars front cs back hf hb]

/-- Reading the pieces of a line of atoms is reading the atoms. -/
theorem mapM_readAtom_joined (d : Dictionary) (names : List String) (sep : Char) (front back : List Char)
    (hsep : Text.isBlank sep = false)
    (hf : ∀ c ∈ front, Text.isBlank c = true) (hb : ∀ c ∈ back, Text.isBlank c = true)
    (as : List Atom) (hne : as ≠ []) (h : ∀ a ∈ as, sep ∉ atomLine d names a) :
    (Text.splitOn (· == sep)
      (front ++ [' ', sep, ' '].intercalate (as.map (atomLine d names)) ++ back)).mapM
      readAtom = as.mapM fun a => readAtom (atomLine d names a) := by
  have hblank : ∀ c, Text.isBlank c = true → (c == sep) = false := fun c hc => by
    refine beq_eq_false_iff_ne.mpr fun heq => ?_
    rw [heq, hsep] at hc
    cases hc
  have hfree : ∀ text ∈ as.map (atomLine d names), ∀ c ∈ text, (c == sep) = false :=
    fun text ht c hc => by
    obtain ⟨a, ha, rfl⟩ := List.mem_map.mp ht
    exact beq_eq_false_iff_ne.mpr fun heq => h a ha (heq ▸ hc)
  have hmap := Text.map_splitOn_joined ignoresBlanks_readAtom (· == sep) sep front back (by simp) hblank
    hfree (by simpa using hne) hf hb
  have hmapM : ∀ pieces : List (List Char), pieces.mapM readAtom = (pieces.map readAtom).mapM id :=
    fun pieces => by rw [List.mapM_map]; rfl
  rw [hmapM, hmap, ← hmapM, List.mapM_map]
  rfl

/-! ## Literals -/

theorem readLiteral_restores {l : Literal} (hne : l.atoms ≠ [])
    (h : ∀ t ∈ l.terms, Legible d names (LiteralWord l) t) :
    Restores d names (readLiteral (literalLine d names l)) l.renumber := by
  have hatom : ∀ a ∈ l.atoms, Restores d names (readAtom (atomLine d names a)) a.renumber := fun a ha =>
    readAtom_restores fun t ht => (h t (List.mem_flatMap.mpr ⟨a, ha, ht⟩)).mono fun _ hw => hw.toIsWord
  cases l with
  | positive a =>
    unfold readLiteral
    split
    · rename_i rest heq
      -- the first word would be the one that starts a negation
      have hsubject := h a.subject
        (List.mem_flatMap.mpr ⟨a, List.mem_singleton_self a, by simp [Three.toList]⟩)
      have hline : literalLine d names (.positive a) = word d names a.subject ++ ' ' ::
          [' '].intercalate [word d names a.predicate, word d names a.object] := rfl
      have hwords := congrArg Text.wordChars (hline.symm.trans heq)
      rw [Text.wordChars_append (by decide), Text.wordChars_eq_singleton hsubject.ok.toIsWord,
        show 'n' :: 'o' :: 't' :: ' ' :: rest = ['n', 'o', 't'] ++ ' ' :: rest from rfl,
        Text.wordChars_append (by decide),
        show Text.wordChars ['n', 'o', 't'] = [['n', 'o', 't']] by decide]
        at hwords
      exact absurd (List.cons_eq_cons.mp hwords).1 hsubject.affirms
    · exact (hatom a (List.mem_singleton_self a)).map Literal.positive
  | negative as =>
    have hline : literalLine d names (.negative as) = 'n' :: 'o' :: 't' :: ' ' ::
        ([] ++ [' ', '&', ' '].intercalate (as.map (atomLine d names)) ++ []) := by
      rw [List.append_nil]; rfl
    have hfree : ∀ a ∈ as, '&' ∉ atomLine d names a := fun a ha => notMem_atomLine (by decide) fun t ht =>
      (h t (List.mem_flatMap.mpr ⟨a, ha, ht⟩)).ok.noAmpersand rfl
    have hpieces := mapM_readAtom_joined d names '&' [] [] (by decide) (by simp) (by simp) as hne hfree
    rw [hline, readLiteral, hpieces]
    exact (mapM_restores Atom.renumber hatom).map Literal.negative

theorem firm_literalLine {l : Literal} {ok : List Char → Prop} (hne : l.atoms ≠ [])
    (h : ∀ t ∈ l.terms, Legible d names ok t) : Text.Firm (literalLine d names l) := by
  have hatom : ∀ a ∈ l.atoms, Text.Firm (atomLine d names a) := fun a ha =>
    firm_atomLine fun t ht => h t (List.mem_flatMap.mpr ⟨a, ha, ht⟩)
  cases l with
  | positive a => exact hatom a (List.mem_singleton_self a)
  | negative as =>
    have hnot : Text.Firm ['n', 'o', 't'] :=
      .of_isWord ⟨by decide, Text.unbroken_of_all (by decide)⟩ (by decide)
    have hlines : Text.Firm ([' ', '&', ' '].intercalate (as.map (atomLine d names))) :=
      .intercalate (mt List.map_eq_nil_iff.mp hne) (List.forall_mem_map.mpr hatom)
    exact hnot.append_append [' '] hlines

theorem comma_notMem_literalLine {l : Literal} (h : ∀ t ∈ l.terms, ',' ∉ word d names t) :
    ',' ∉ literalLine d names l := by
  have hatom : ∀ a ∈ l.atoms, ',' ∉ atomLine d names a := fun a ha =>
    notMem_atomLine (by decide) fun t ht => h t (List.mem_flatMap.mpr ⟨a, ha, ht⟩)
  cases l with
  | positive a => exact hatom a (List.mem_singleton_self a)
  | negative as =>
    rw [literalLine, List.mem_append, not_or]
    exact ⟨by decide, Text.notMem_intercalate (by decide) (List.forall_mem_map.mpr hatom)⟩

/-- The literals of a line are found again: they are its pieces, trimmed, without the empty one that is
all there is of an empty line. -/
theorem literals_of_bodyLine {front : List Char} (hf : ∀ c ∈ front, Text.isBlank c = true)
    {body : List Literal} (hfirm : ∀ l ∈ body, Text.Firm (literalLine d names l))
    (hcomma : ∀ l ∈ body, ',' ∉ literalLine d names l) :
    (((Text.splitOn (· == ',') (front ++ bodyLine d names body)).map Text.trimChars).filter
      fun l => !l.isEmpty) = body.map (literalLine d names) := by
  have hblank : ∀ c, Text.isBlank c = true → (c == ',') = false := fun c hc => by
    refine beq_eq_false_iff_ne.mpr fun heq => ?_
    subst heq
    revert hc
    decide
  cases body with
  | nil =>
    rw [bodyLine, List.map_nil, List.intercalate_nil, Text.splitOn_eq_singleton fun c hc =>
      hblank c (hf c (by simpa using hc)), List.map_singleton, ← List.append_nil (front ++ []),
      Text.ignoresBlanks_trimChars front [] [] hf (by simp)]
    rfl
  | cons l body =>
    have hfree : ∀ text ∈ (l :: body).map (literalLine d names), ∀ c ∈ text, (c == ',') = false :=
      fun text ht c hc => by
        obtain ⟨l', hl', rfl⟩ := List.mem_map.mp ht
        exact beq_eq_false_iff_ne.mpr fun heq => hcomma l' hl' (heq ▸ hc)
    have hmap := Text.map_splitOn_joined Text.ignoresBlanks_trimChars (· == ',') ',' front [] rfl hblank
      hfree (by simp) hf (by simp)
    rw [List.append_nil] at hmap
    have htrim : ((l :: body).map (literalLine d names)).map Text.trimChars =
        (l :: body).map (literalLine d names) := by
      rw [List.map_map]
      exact List.map_congr_left fun l' hl' => (hfirm l' hl').trimChars_eq
    rw [bodyLine, hmap, htrim, List.filter_eq_self]
    intro line hl
    obtain ⟨l', hl', rfl⟩ := List.mem_map.mp hl
    simpa using (hfirm l' hl').ne_nil

/-! ## Rules -/

/-- What is left of the text of a rule once its ends are trimmed: the blank character behind the arrow
goes if nothing follows it. -/
theorem trimmed_text {head : List Atom} {body : List Literal} (hhead : Text.Firm (headLine d names head))
    (hbody : body ≠ [] → Text.Firm (bodyLine d names body)) :
    ∃ front, (∀ c ∈ front, Text.isBlank c = true) ∧
      Text.trimChars (Text.dropEndWhile (· == '.') (Text.trimChars
        (headLine d names head ++ " :- ".toList ++ bodyLine d names body))) =
      (headLine d names head ++ [' ']) ++ ':' :: '-' :: (front ++ bodyLine d names body) := by
  cases body with
  | nil =>
    have harrow : Text.Firm [':', '-'] :=
      .of_isWord ⟨by decide, Text.unbroken_of_all (by decide)⟩ (by decide)
    have hfirm : Text.Firm (headLine d names head ++ [' '] ++ [':', '-']) :=
      hhead.append_append [' '] harrow
    have htext : headLine d names head ++ " :- ".toList ++ bodyLine d names [] =
        [] ++ (headLine d names head ++ [' '] ++ [':', '-']) ++ [' '] := by
      simp [bodyLine]
    refine ⟨[], by simp, ?_⟩
    rw [htext, Text.ignoresBlanks_trimChars [] _ _ (by simp)
      (List.forall_mem_singleton.mpr (by decide)), hfirm.trimChars_eq, hfirm.dropDots_eq,
      hfirm.trimChars_eq]
    rfl
  | cons l body =>
    have hfirm := hhead.append_append " :- ".toList (hbody (List.cons_ne_nil l body))
    refine ⟨[' '], List.forall_mem_singleton.mpr (by decide), ?_⟩
    rw [hfirm.trimChars_eq, hfirm.dropDots_eq, hfirm.trimChars_eq]
    simp

theorem getElem?_renumbering {v : Nat} (hv : v < names.length)
    (h : renumbering names names' v < names'.length) :
    names'[renumbering names names' v]? = names[v]? := by
  rw [List.getElem?_eq_getElem h, List.getElem?_eq_getElem hv]
  simp [renumbering, List.getElem?_eq_getElem hv]

theorem renumbering_injOn (hn : names.Nodup) : Set.InjOn (renumbering names names')
    {v | v < names.length ∧ renumbering names names' v < names'.length} := by
  rintro v ⟨hv, hρv⟩ w ⟨hw, hρw⟩ heq
  have hget : names[v]? = names[w]? := by
    rw [← getElem?_renumbering hv hρv, ← getElem?_renumbering hw hρw, heq]
  rw [List.getElem?_eq_getElem hv, List.getElem?_eq_getElem hw] at hget
  exact (List.Nodup.getElem_inj_iff hn).mp (Option.some.inj hget)

theorem arrow_notInfix_headLine {head : List Atom}
    (h : ∀ a ∈ head, ∀ t ∈ a.toList, ¬ [':', '-'] <:+: word d names t) :
    ¬ [':', '-'] <:+: headLine d names head ++ [' '] := by
  intro hwithin
  rcases Text.infix_of_infix_append_cons hwithin (by decide) with hwithin | hwithin
  · obtain ⟨line, hl, hwithin⟩ :=
      Text.infix_of_infix_intercalate (by decide) (by decide) (by simp) hwithin
    obtain ⟨a, ha, rfl⟩ := List.mem_map.mp hl
    obtain ⟨w, hw, hwithin⟩ := Text.infix_of_infix_intercalate (by decide) (by decide) (by simp) hwithin
    obtain ⟨t, ht, rfl⟩ := List.mem_map.mp hw
    exact h a ha t ht hwithin
  · cases List.infix_nil.mp hwithin

/-- A rule is read by reading its parts. -/
theorem read_eq_ok {text : String} {before after : List Char} {s s₁ s₂ : Reading} {head : List Atom}
    {body : List Literal} {r : Rule}
    (htrim : Text.trimChars (Text.dropEndWhile (· == '.') (Text.trimChars text.toList)) =
      before ++ ':' :: '-' :: after)
    (harrow : ¬ [':', '-'] <:+: before)
    (hhead : (Text.splitOn (· == ',') before).mapM readAtom s = .ok head s₁)
    (hbody : (((Text.splitOn (· == ',') after).map Text.trimChars).filter fun l => !l.isEmpty).mapM
      readLiteral s₁ = .ok body s₂)
    (hr : Rule.new head body s₂.names = .ok r) : Rule.read text s = .ok r s₂ := by
  unfold Rule.read
  dsimp only
  rw [htrim, splitArrow_append harrow]
  refine bind_eq_ok.mpr ⟨head, s₁, hhead, bind_eq_ok.mpr ⟨body, s₂, hbody, ?_⟩⟩
  refine bind_eq_ok.mpr ⟨s₂, s₂, rfl, ?_⟩
  rw [hr]
  rfl

/-- The variables of literals that were read back have been met and have different numbers. -/
theorem injOn_renumbering_of_read {body : List Literal} {lines : List (List Char)} {s s' : Reading}
    (hnodup : names.Nodup) (hnamed : ∀ l ∈ body, ∀ a ∈ l.atoms, ∀ v ∈ a.vars, v < names.length)
    (hcomma : ∀ line ∈ lines, ',' ∉ line)
    (hread : lines.mapM readLiteral s =
      .ok (body.map (Literal.renumber (renumbering names s'.names))) s') :
    Set.InjOn (renumbering names s'.names) {v | ∃ l ∈ body, v ∈ l.vars} := by
  refine (renumbering_injOn hnodup).mono fun v ⟨l, hl, hv⟩ => ?_
  obtain ⟨a, ha, hva⟩ := List.mem_flatMap.mp hv
  have hterm : Term.renumber (renumbering names s'.names) (.var v) ∈
      (l.renumber (renumbering names s'.names)).terms :=
    Literal.mem_terms_renumber.mpr ⟨.var v, List.mem_flatMap.mpr ⟨a, ha, Atom.mem_vars_iff.mp hva⟩, rfl⟩
  have hmet := mapM_gathers _ (fun line hline => readLiteral_gathers (hcomma line hline)) hread
  exact ⟨hnamed l hl a ha v hva, (hmet.2 _ (List.mem_map.mpr ⟨l, hl, rfl⟩) _ hterm).lt_length⟩

/-- A rule whose terms are legible is read back with its variables renumbered. -/
theorem read_display {r : Rule} (hsafe : r.Safe) (hacceptable : Acceptable r.head r.body)
    (hnodup : r.names.Nodup) (hne : ∀ l ∈ r.body, l.atoms ≠ [])
    (hhead : ∀ a ∈ r.head, ∀ t ∈ a.toList, Legible d r.names HeadWord t)
    (hbody : ∀ l ∈ r.body, ∀ t ∈ l.terms, Legible d r.names (LiteralWord l) t) {text : String}
    (htext : r.display d = some text) :
    ∃ names', Rule.read text ⟨d, []⟩ = .ok (r.withNames names') ⟨d, names'⟩ := by
  rw [display_eq hsafe, Option.some.injEq] at htext
  have hcomma : ∀ l ∈ r.body, ',' ∉ literalLine d r.names l := fun l hl =>
    comma_notMem_literalLine fun t ht => (hbody l hl t ht).ok.noComma
  have hfirm : ∀ l ∈ r.body, Text.Firm (literalLine d r.names l) := fun l hl =>
    firm_literalLine (hne l hl) (hbody l hl)
  have hfirmHead : Text.Firm (headLine d r.names r.head) :=
    .intercalate (mt List.map_eq_nil_iff.mp hacceptable.head_ne_nil)
      (List.forall_mem_map.mpr fun a ha => firm_atomLine (hhead a ha))
  have hfirmBody : r.body ≠ [] → Text.Firm (bodyLine d r.names r.body) := fun hb =>
    .intercalate (mt List.map_eq_nil_iff.mp hb) (List.forall_mem_map.mpr hfirm)
  -- the terms come back one by one, and their variables have all been met at the end
  obtain ⟨head', s₁, h₁, hs₁, -, hhead'⟩ := mapM_restores Atom.renumber (fun a ha =>
    readAtom_restores fun t ht => (hhead a ha t ht).mono fun _ hw => hw.toIsWord) ⟨d, []⟩ rfl
  obtain ⟨body', s₂, h₂, hs₂, hp, hbody'⟩ := mapM_restores Literal.renumber (fun l hl =>
    readLiteral_restores (hne l hl) (hbody l hl)) s₁ hs₁
  obtain rfl := hhead' s₂.names hp
  obtain rfl := hbody' s₂.names List.prefix_rfl
  -- numbers given to different variables differ, so that the rule is accepted again
  have hlines : (r.body.map (literalLine d r.names)).mapM readLiteral s₁ =
      .ok (r.body.map (Literal.renumber (renumbering r.names s₂.names))) s₂ := by
    rw [List.mapM_map]
    exact h₂
  have hinj := injOn_renumbering_of_read hnodup
    (fun l hl a ha => hsafe.named a (List.mem_append_right _ (List.mem_flatMap.mpr ⟨l, hl, ha⟩)))
    (List.forall_mem_map.mpr hcomma) hlines
  obtain ⟨r', hr'⟩ : ∃ r', Rule.new _ _ s₂.names = .ok r' :=
    exists_new_iff.mpr (hacceptable.renumber hinj)
  have hlast := negativesLast_eq_self (r.body.map (Literal.renumber (renumbering r.names s₂.names)))
    (List.pairwise_map.mpr (by simpa using hsafe.ordered))
  obtain ⟨front, hfront, htrim⟩ := trimmed_text hfirmHead hfirmBody
  rw [← String.toList_ofList (l := _ ++ bodyLine d r.names r.body), htext] at htrim
  have hpieces := mapM_readAtom_joined d r.names ',' [] [' ']
    (by decide) (by simp) (List.forall_mem_singleton.mpr (by decide)) r.head hacceptable.head_ne_nil
      fun a ha => notMem_atomLine (by decide)
      fun t ht => (hhead a ha t ht).ok.noComma
  have hread := read_eq_ok htrim (arrow_notInfix_headLine fun a ha t ht => (hhead a ha t ht).ok.noArrow)
    (s := ⟨d, []⟩) ((congrFun hpieces _).trans h₁)
    (by rw [literals_of_bodyLine hfront hfirm hcomma, hlines]) hr'
  rw [(new_eq_ok hr').1, hlast] at hread
  exact ⟨s₂.names, hread.trans (by rw [← hs₂]; rfl)⟩

/-- The constants of a rule. -/
def constants (r : Rule) : List Nat := r.atoms.flatMap Atom.constants

/-- The compact form of a constant that reads back, and is not empty, makes every constant legible. -/
theorem ReadsBack.headWord {id : Nat} (h : ReadsBack d id) (hne : d.display id ≠ "") :
    HeadWord (d.display id).toList :=
  ⟨⟨by simpa using hne, h.noBlank⟩, h.noComma, h.noArrow⟩

theorem ReadsBack.literalWord {id : Nat} (h : ReadsBack d id) (hne : d.display id ≠ "") (l : Literal) :
    LiteralWord l (d.display id).toList :=
  ⟨⟨by simpa using hne, h.noBlank⟩, h.noComma, fun _ => h.noAmpersand⟩

/-- The numbers are changed one to one, if in both rules all numbers below that of the names are used,
and no others. -/
theorem renumbers_withNames {r : Rule} (hnodup : r.names.Nodup)
    (hvars : ∀ v, v < r.names.length ↔ ∃ a ∈ r.atoms, v ∈ a.vars)
    (hvars' : ∀ v, v < names'.length ↔ ∃ a ∈ (r.withNames names').atoms, v ∈ a.vars) :
    (r.atLevel 0).Renumbers (renumbering r.names names') (r.withNames names') := by
  have hatoms : (r.withNames names').atoms =
      r.atoms.map (Atom.renumber (renumbering r.names names')) := by
    rw [Rule.atoms, Rule.atoms, withNames, List.map_append, List.map_flatMap, List.flatMap_map]
    simp only [Literal.atoms_renumber]
  have hiff : ∀ v', v' < names'.length ↔ ∃ v < r.names.length, renumbering r.names names' v = v' := by
    intro v'
    rw [hvars', hatoms]
    constructor
    · rintro ⟨a', ha', hv'⟩
      obtain ⟨a, ha, rfl⟩ := List.mem_map.mp ha'
      obtain ⟨v, hv, rfl⟩ := Atom.mem_vars_renumber.mp hv'
      exact ⟨v, (hvars v).mpr ⟨a, ha, hv⟩, rfl⟩
    · rintro ⟨v, hv, rfl⟩
      obtain ⟨a, ha, hv⟩ := (hvars v).mp hv
      exact ⟨_, List.mem_map.mpr ⟨a, ha, rfl⟩, Atom.mem_vars_renumber.mpr ⟨v, hv, rfl⟩⟩
  have hlt : ∀ v < r.names.length, renumbering r.names names' v < names'.length := fun v hv =>
    (hiff _).mpr ⟨v, hv, rfl⟩
  have hinj : Set.InjOn (renumbering r.names names') (Set.Iio r.names.length) := fun v hv w hw =>
    renumbering_injOn hnodup ⟨hv, hlt v hv⟩ ⟨hw, hlt w hw⟩
  exact ⟨rfl, rfl, rfl, ⟨hlt, hinj, fun v' hv' => (hiff v').mp hv'⟩, fun v hv =>
    getElem?_renumbering hv (hlt v hv)⟩

/-- Reading a rule, writing it and reading it again gives the same rule, up to the numbers of its
variables, and finds no new resource: if the compact form of each constant is read as that constant
and as one word of a rule, and no name of a variable ends with the dot that may end a rule. -/
theorem exists_parse_display {text : String} {d d' : Dictionary} {r : Rule}
    (h : Rule.parse text d = (.ok r, d'))
    (hconst : ∀ id ∈ r.constants, d'.display id ≠ "" ∧ ReadsBack d' id)
    (hnames : ∀ name ∈ r.names, name.toList.getLast? ≠ some '.') :
    ∃ text' r' ρ, r.display d' = some text' ∧ Rule.parse text' d' = (.ok r', d') ∧
      (r.atLevel 0).Renumbers ρ r' := by
  have hparsed := h
  obtain ⟨s', hs, rfl⟩ := exists_read_of_parse h
  obtain ⟨-, hnodup, hvars⟩ := variables_of_read hs
  have hsafe := safe_of_read hs
  obtain ⟨head, body, hr, -, hhead, hbody⟩ := exists_new_of_read hs
  obtain ⟨rfl, -⟩ := new_eq_ok hr
  dsimp only at hnames hnodup
  have hacceptable : Acceptable head (negativesLast body) := Parsed.acceptable
    (r := ⟨head, negativesLast body, 0, s'.names⟩) ⟨text, d, _, hparsed⟩
  have hid : ∀ a ∈ head ++ (negativesLast body).flatMap Literal.atoms, ∀ t ∈ a.toList,
      ∀ id, t = .const id →
      s'.dictionary.display id ≠ "" ∧ ReadsBack s'.dictionary id := fun a ha t ht id hid =>
    hconst id (List.mem_flatMap.mpr ⟨a, ha, Atom.mem_constants_iff.mpr (hid ▸ ht)⟩)
  obtain ⟨text', htext⟩ := Option.isSome_iff_exists.mp (Option.isSome_of_eq_some (display_eq hsafe))
  obtain ⟨names', hread⟩ := read_display hsafe hacceptable hnodup
    (fun l hl => (hbody l (mem_negativesLast.mp hl)).1)
    (fun a ha t ht => (hhead a ha t ht).legible (fun _ hw => hw.toIsWord) (fun id h => by
      obtain ⟨hne, hback⟩ := hid a (List.mem_append_left _ ha) t ht id h
      exact ⟨hback.headWord hne, hback⟩) hnames)
    (fun l hl t ht => ((hbody l (mem_negativesLast.mp hl)).2 t ht).legible (fun _ hw => hw.toIsWord)
      (fun id h => by
        obtain ⟨a, ha, hta⟩ := List.mem_flatMap.mp ht
        obtain ⟨hne, hback⟩ :=
          hid a (List.mem_append_right _ (List.mem_flatMap.mpr ⟨l, hl, ha⟩)) t hta id h
        exact ⟨hback.literalWord hne l, hback⟩) hnames) htext
  have hparse := parse_of_read hread
  exact ⟨text', _, _, htext, hparse,
    renumbers_withNames hnodup hvars (variables_of_read hread).2.2⟩

theorem exists_parse_display_serves : ∃ text d d' r, Rule.parse text d = (.ok r, d') ∧
    (∀ id ∈ r.constants, d'.display id ≠ "" ∧ ReadsBack d' id) ∧
    (∀ name ∈ r.names, name.toList.getLast? ≠ some '.') ∧
    ∃ text' r' ρ, r.display d' = some text' ∧ Rule.parse text' d' = (.ok r', d') ∧
      (r.atLevel 0).Renumbers ρ r' := by
  obtain ⟨d, hd⟩ := Dictionary.exists_ids (l := [.iri "is"]) (by decide)
  have hid := hd 0 (.iri "is") rfl
  -- `z` is met before `y`, and will be met behind it
  have hparse : Rule.parse "?x ?p ?x :- not ?x is ?z , ?x ?p ?y" d =
      (.ok ⟨[⟨.var 0, .var 1, .var 0⟩], [.positive ⟨.var 0, .var 1, .var 3⟩,
        .negative [⟨.var 0, .const 1, .var 2⟩]], 0, ["x", "p", "z", "y"]⟩, d) := by
    cbv
    grind
  have hresource : d.resource? 1 = some (.iri "is") :=
    Dictionary.lookup_eq_some_iff.mp (by simp [Dictionary.lookup, hid])
  have hdisplay : d.display 1 = "is" := by rw [Dictionary.display, hresource]; decide
  have hback : ReadsBack d 1 := by
    constructor <;> rw [hdisplay]
    · exact hresource
    · exact Text.unbroken_of_all (by decide)
    all_goals decide
  have hconst : ∀ id ∈ [1], d.display id ≠ "" ∧ ReadsBack d id := by
    simpa [hdisplay] using hback
  have hnames : ∀ name ∈ ["x", "p", "z", "y"], name.toList.getLast? ≠ some '.' := by decide
  exact ⟨_, d, d, _, hparse, hconst, hnames, exists_parse_display hparse hconst hnames⟩

/-- The empty name is a resource with an empty compact form, which reads back but is no word: a rule
that has it cannot be read back. -/
theorem exists_not_parse_display : ∃ text d d' r, Rule.parse text d = (.ok r, d') ∧
    (∀ id ∈ r.constants, ReadsBack d' id) ∧ (∀ name ∈ r.names, name.toList.getLast? ≠ some '.') ∧
    ¬ ∃ text' r' ρ, r.display d' = some text' ∧ Rule.parse text' d' = (.ok r', d') ∧
      (r.atLevel 0).Renumbers ρ r' := by
  obtain ⟨d, hd⟩ := Dictionary.exists_ids (l := [.iri ""]) (by decide)
  have hid := hd 0 (.iri "") rfl
  let r : Rule := ⟨[⟨.var 0, .var 1, .var 0⟩], [.positive ⟨.var 0, .var 1, .const 1⟩], 0, ["x", "p"]⟩
  have hparse : Rule.parse "?x ?p ?x :- ?x ?p <>" d = (.ok r, d) := by
    cbv
    grind
  have hresource : d.resource? 1 = some (.iri "") :=
    Dictionary.lookup_eq_some_iff.mp (by simp [Dictionary.lookup, hid])
  have hdisplay : d.display 1 = "" := by rw [Dictionary.display, hresource]; decide
  have hback : ReadsBack d 1 := by
    constructor <;> rw [hdisplay]
    · exact hresource
    · exact Text.unbroken_of_all (by decide)
    all_goals decide
  have hconst : ∀ id ∈ [1], ReadsBack d id := by simpa using hback
  have htext : r.display d = some "?x ?p ?x :- ?x ?p " := by
    simp [r, Rule.display, displayAtom, displayLiteral, displayTerm, Three.toList, hdisplay]
  refine ⟨_, d, d, r, hparse, hconst, by decide, ?_⟩
  rintro ⟨text', r', ρ, htext', hparse', -⟩
  rw [htext, Option.some.injEq] at htext'
  subst htext'
  cbv at hparse'
  cases hparse'

end Rule

end Entail

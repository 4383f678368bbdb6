import Entail.Proofs.Dictionary
import Entail.Proofs.Program
import Entail.Proofs.Text
import Entail.Rule.Text

/-!
# What is met while a rule is read

Reading a term, an atom or a literal only adds to the names and the resources that were met before, and
every name it adds is that of a variable it has read (`Rule.Gathered`). The variables it has read are
named by words of the text, and the constants are ids of resources (`Rule.Reading.Knows`). So the parts
of a rule are known once it was read (`Rule.exists_new_of_read`): the words of a head have no comma and
no arrow in them (`Rule.HeadWord`), those of a literal no comma, and those of a negated one no ampersand
(`Rule.LiteralWord`).
-/

namespace Entail

/-- The terms of a literal, in order and with repetitions. -/
def Literal.terms (l : Literal) : List Term := l.atoms.flatMap Three.toList

namespace Rule

/-! ## Knowing terms -/

/-- A variable was met under a name that makes a word of the class `ok`, and a constant is the id of a
resource. -/
def Reading.Knows (s : Reading) (ok : List Char → Prop) : Term → Prop
  | .var v => ∃ name, s.names[v]? = some name ∧ ok ('?' :: name.toList)
  | .const id => id ≠ 0 ∧ id ≤ s.dictionary.size

/-- Between `s` and `s'` the given terms were read: nothing that was met before is forgotten, and a new
name is that of one of the terms. -/
structure Gathered (s s' : Reading) (terms : List Term) : Prop where
  names : s.names <+: s'.names
  size : s.dictionary.size ≤ s'.dictionary.size
  nodup : s.names.Nodup → s'.names.Nodup
  met : ∀ v, s.names.length ≤ v → v < s'.names.length → .var v ∈ terms

/-- From every state, what `x` reads is gathered and known. -/
def Gathers {α : Type} (x : Reader α) (terms : α → List Term) (ok : α → List Char → Prop) : Prop :=
  ∀ s a s', x s = .ok a s' → Gathered s s' (terms a) ∧ ∀ t ∈ terms a, s'.Knows (ok a) t

variable {α β : Type} {s s₁ s₂ : Reading} {ts ts' : List Term} {ok ok' : List Char → Prop}

theorem Reading.Knows.mono {t : Term} (h : s.Knows ok t) (hok : ∀ w, ok w → ok' w) : s.Knows ok' t := by
  cases t with
  | var v =>
    obtain ⟨name, hname, hw⟩ := h
    exact ⟨name, hname, hok _ hw⟩
  | const id => exact h

/-- A variable that is known has a name. -/
theorem Reading.Knows.lt_length {v : Nat} (h : s.Knows ok (.var v)) : v < s.names.length := by
  obtain ⟨name, hname, -⟩ := h
  exact (List.getElem?_eq_some_iff.mp hname).1

namespace Gathered

theorem refl : Gathered s s [] :=
  ⟨List.prefix_rfl, le_rfl, id, fun _ h h' => absurd h' (Nat.not_lt.mpr h)⟩

theorem trans (h : Gathered s s₁ ts) (h' : Gathered s₁ s₂ ts') : Gathered s s₂ (ts ++ ts') := by
  refine ⟨h.names.trans h'.names, h.size.trans h'.size, h'.nodup ∘ h.nodup, fun v hv hv' => ?_⟩
  rcases Nat.lt_or_ge v s₁.names.length with hlt | hge
  · exact List.mem_append_left _ (h.met v hv hlt)
  · exact List.mem_append_right _ (h'.met v hge hv')

/-- What is known stays known. -/
theorem knows (h : Gathered s s₁ ts) {t : Term} (ht : s.Knows ok t) : s₁.Knows ok t := by
  cases t with
  | var v =>
    obtain ⟨name, hname, hw⟩ := ht
    obtain ⟨rest, hrest⟩ := h.names
    refine ⟨name, ?_, hw⟩
    rw [← hrest, List.getElem?_append_left (List.getElem?_eq_some_iff.mp hname).1, hname]
  | const id => exact ⟨ht.1, ht.2.trans h.size⟩

end Gathered

theorem Gathers.mono {x : Reader α} {terms : α → List Term} {ok ok' : α → List Char → Prop}
    (h : Gathers x terms ok) (hok : ∀ a w, ok a w → ok' a w) : Gathers x terms ok' := by
  intro s a s' hx
  obtain ⟨hg, hk⟩ := h s a s' hx
  exact ⟨hg, fun t ht => (hk t ht).mono (hok a)⟩

/-! ## The parts of a rule -/

theorem readVariable_gathers (name : String) :
    Gathers (readVariable name) ([·]) fun _ w => w = '?' :: name.toList := by
  intro s t s' h
  obtain ⟨_, _, hs, h⟩ := bind_eq_ok.mp h
  cases hs
  cases hv : s.names.idxOf? name with
  | some v =>
    rw [hv] at h
    cases h
    obtain ⟨hl, hname, -⟩ := List.idxOf?_eq_some_iff.mp hv
    refine ⟨⟨List.prefix_rfl, le_rfl, id, fun v h h' => absurd h' (Nat.not_lt.mpr h)⟩, ?_⟩
    simpa using ⟨name, List.getElem?_eq_some_iff.mpr ⟨hl, hname⟩, rfl⟩
  | none =>
    rw [hv] at h
    obtain ⟨_, _, hs, h⟩ := bind_eq_ok.mp h
    cases hs
    cases h
    have hnew : name ∉ s.names := List.idxOf?_eq_none_iff.mp hv
    refine ⟨⟨List.prefix_append .., le_rfl, fun hd => List.nodup_append.mpr ⟨hd, List.nodup_singleton _,
      fun a ha b hb => ?_⟩, fun v hv hv' => ?_⟩, ?_⟩
    · rw [List.mem_singleton.mp hb]
      exact fun heq => hnew (heq ▸ ha)
    · rw [List.length_append, List.length_singleton] at hv'
      rw [List.mem_singleton, show v = s.names.length by omega]
    · simpa using ⟨name, List.getElem?_concat_length, rfl⟩

theorem readTerm_gathers (cs : List Char) : Gathers (readTerm cs) ([·]) fun _ w => w = cs := by
  unfold readTerm
  split
  · exact (readVariable_gathers _).mono fun _ w hw => by rw [hw, String.toList_ofList]
  · intro s t s' h
    cases h
    obtain ⟨hid, hsize⟩ := s.dictionary.intern_spec (Resource.ofChars cs)
    refine ⟨⟨List.prefix_rfl, hsize, id, fun v h h' => absurd h' (Nat.not_lt.mpr h)⟩, fun t ht => ?_⟩
    rw [List.mem_singleton.mp ht]
    exact Dictionary.isSome_resource?_iff.mp (Option.isSome_of_eq_some hid)

theorem readAtom_gathers (cs : List Char) :
    Gathers (readAtom cs) Three.toList fun _ w => w ∈ Text.wordChars cs := by
  unfold readAtom
  split
  · rename_i w₁ w₂ w₃ hwords
    intro s a s' h
    obtain ⟨t₁, s₁, h₁, h⟩ := bind_eq_ok.mp h
    obtain ⟨t₂, s₂, h₂, h⟩ := bind_eq_ok.mp h
    obtain ⟨t₃, s₃, h₃, h⟩ := bind_eq_ok.mp h
    cases h
    obtain ⟨g₁, k₁⟩ := readTerm_gathers _ _ _ _ h₁
    obtain ⟨g₂, k₂⟩ := readTerm_gathers _ _ _ _ h₂
    obtain ⟨g₃, k₃⟩ := readTerm_gathers _ _ _ _ h₃
    refine ⟨(g₁.trans g₂).trans g₃, fun t ht => ?_⟩
    rw [hwords]
    simp only [Three.toList, List.mem_cons, List.not_mem_nil, or_false] at ht
    rcases ht with rfl | rfl | rfl
    · exact (g₃.knows (g₂.knows (k₁ _ (by simp)))).mono (by simp)
    · exact (g₃.knows (k₂ _ (by simp))).mono (by simp)
    · exact (k₃ _ (by simp)).mono (by simp)
  · intro s a s' h
    cases h

theorem mapM_gathers {f : α → Reader β} {terms : β → List Term} (ok : β → List Char → Prop) {l : List α}
    (hf : ∀ a ∈ l, Gathers (f a) terms ok) {s s' : Reading} {bs : List β} (h : l.mapM f s = .ok bs s') :
    Gathered s s' (bs.flatMap terms) ∧ ∀ b ∈ bs, ∀ t ∈ terms b, s'.Knows (ok b) t := by
  induction l generalizing s bs s' with
  | nil =>
    rw [List.mapM_nil] at h
    cases h
    exact ⟨.refl, fun b hb => by cases hb⟩
  | cons a l ih =>
    rw [List.mapM_cons] at h
    obtain ⟨b, s₁, h₁, h⟩ := bind_eq_ok.mp h
    obtain ⟨bs', s₂, h₂, h⟩ := bind_eq_ok.mp h
    cases h
    obtain ⟨g₁, k₁⟩ := hf a List.mem_cons_self s b s₁ h₁
    obtain ⟨g₂, k₂⟩ := ih (fun c hc => hf c (List.mem_cons_of_mem a hc)) h₂
    rw [List.flatMap_cons]
    refine ⟨g₁.trans g₂, fun c hc => ?_⟩
    rcases List.mem_cons.mp hc with rfl | hc
    · exact fun t ht => g₂.knows (k₁ t ht)
    · exact k₂ c hc

/-- What holds of every result of a reader holds of all that it reads from a list, one for each
element. -/
theorem forall_of_mapM {f : α → Reader β} {P : β → Prop} {l : List α}
    (hf : ∀ a ∈ l, ∀ s b s', f a s = .ok b s' → P b) {s s' : Reading} {bs : List β}
    (h : l.mapM f s = .ok bs s') : bs.length = l.length ∧ ∀ b ∈ bs, P b := by
  induction l generalizing s bs with
  | nil =>
    rw [List.mapM_nil] at h
    cases h
    exact ⟨rfl, fun b hb => by cases hb⟩
  | cons a l ih =>
    rw [List.mapM_cons] at h
    obtain ⟨b, s₁, h₁, h⟩ := bind_eq_ok.mp h
    obtain ⟨bs', s₂, h₂, h⟩ := bind_eq_ok.mp h
    cases h
    obtain ⟨hlength, hP⟩ := ih (fun c hc => hf c (List.mem_cons_of_mem a hc)) h₂
    refine ⟨by simp [hlength], fun c hc => ?_⟩
    rcases List.mem_cons.mp hc with rfl | hc
    · exact hf a List.mem_cons_self s c s₁ h₁
    · exact hP c hc

/-- A word that a head can have. -/
structure HeadWord (w : List Char) : Prop extends Text.IsWord w where
  noComma : ',' ∉ w
  noArrow : ¬ [':', '-'] <:+: w

/-- A word that a literal can have. -/
structure LiteralWord (l : Literal) (w : List Char) : Prop extends Text.IsWord w where
  noComma : ',' ∉ w
  noAmpersand : l.isPositive = false → '&' ∉ w

theorem not_mem_of_mem_splitOn {sep : Char} {cs piece : List Char}
    (h : piece ∈ Text.splitOn (· == sep) cs) : sep ∉ piece := fun hm => by
  simpa using (Text.of_mem_splitOn h).2 sep hm

theorem readLiteral_gathers {cs : List Char} (hcs : ',' ∉ cs) :
    Gathers (readLiteral cs) Literal.terms LiteralWord := by
  unfold readLiteral
  split
  · rename_i rest
    intro s l s' h
    rw [map_eq_pure_bind] at h
    obtain ⟨as, s₁, h₁, h⟩ := bind_eq_ok.mp h
    cases h
    have hpieces : ∀ piece ∈ Text.splitOn (· == '&') rest,
        Gathers (readAtom piece) Three.toList fun _ => LiteralWord (.negative as) := fun piece hp =>
      (readAtom_gathers piece).mono fun _ w hw => by
        obtain ⟨hword, hwithin⟩ := Text.of_mem_wordChars hw
        exact ⟨hword, fun hm => hcs (by simp [(Text.of_mem_splitOn hp).1.subset (hwithin.subset hm)]),
          fun _ hm => not_mem_of_mem_splitOn hp (hwithin.subset hm)⟩
    obtain ⟨hg, hk⟩ := mapM_gathers _ hpieces h₁
    refine ⟨hg, fun t ht => ?_⟩
    obtain ⟨a, ha, hta⟩ := List.mem_flatMap.mp ht
    exact hk a ha t hta
  · intro s l s' h
    rw [map_eq_pure_bind] at h
    obtain ⟨a, s₁, h₁, h⟩ := bind_eq_ok.mp h
    cases h
    have hterms : (Literal.positive a).terms = a.toList := List.append_nil _
    rw [hterms]
    have hatom : Gathers (readAtom cs) Three.toList fun _ => LiteralWord (.positive a) :=
      (readAtom_gathers cs).mono fun _ w hw => by
        obtain ⟨hword, hwithin⟩ := Text.of_mem_wordChars hw
        exact ⟨hword, fun hm => hcs (hwithin.subset hm), fun hp => by cases hp⟩
    exact hatom _ _ _ h₁

theorem atoms_ne_nil_of_readLiteral {cs : List Char} {s s' : Reading} {l : Literal}
    (h : readLiteral cs s = .ok l s') : l.atoms ≠ [] := by
  unfold readLiteral at h
  split at h
  · rename_i rest
    rw [map_eq_pure_bind] at h
    obtain ⟨as, s₁, h₁, h⟩ := bind_eq_ok.mp h
    cases h
    have hlength := (forall_of_mapM (P := fun _ => True) (fun _ _ _ _ _ _ => trivial) h₁).1
    rw [Literal.atoms, ← List.length_pos_iff, hlength, List.length_pos_iff]
    exact Text.splitOn_ne_nil _ rest
  · rw [map_eq_pure_bind] at h
    obtain ⟨a, s₁, h₁, h⟩ := bind_eq_ok.mp h
    cases h
    exact List.cons_ne_nil a []

/-! ## The arrow -/

theorem splitArrow_eq_some {cs before after : List Char} (h : splitArrow cs = some (before, after)) :
    cs = before ++ ':' :: '-' :: after ∧ ¬ [':', '-'] <:+: before := by
  induction cs generalizing before with
  | nil => cases h
  | cons c cs ih =>
    rw [splitArrow.eq_def] at h
    split at h
    · rename_i rest heq
      cases h
      exact ⟨heq, fun h => by simp at h⟩
    · rename_i c' cs' hnot heq
      cases heq
      obtain ⟨⟨before', after'⟩, hs, heq⟩ := Option.map_eq_some_iff.mp h
      cases heq
      obtain ⟨rfl, hwithin⟩ := ih hs
      refine ⟨rfl, fun h => ?_⟩
      rcases List.infix_cons_iff.mp h with h | h
      · obtain ⟨hc, h⟩ := List.cons_prefix_cons.mp h
        cases before' with
        | nil => simp at h
        | cons d before' =>
          obtain ⟨hd, -⟩ := List.cons_prefix_cons.mp h
          exact hnot _ hc.symm (by rw [← hd]; rfl)
      · exact hwithin h
    · cases h

/-- The first arrow is where a text is cut. -/
theorem splitArrow_append {before after : List Char} (h : ¬ [':', '-'] <:+: before) :
    splitArrow (before ++ ':' :: '-' :: after) = some (before, after) := by
  induction before with
  | nil => rfl
  | cons c before ih =>
    rw [List.cons_append, splitArrow, ih fun hi => h (List.infix_cons hi)]
    · rfl
    · rintro rest rfl heq
      cases before with
      | nil => cases heq
      | cons d before =>
        cases heq
        exact h (List.prefix_append [':', '-'] before).isInfix

/-! ## Whole rules -/

/-- What is read was accepted, with parts that were gathered and are known. -/
theorem exists_new_of_read {text : String} {s s' : Reading} {r : Rule}
    (h : Rule.read text s = .ok r s') :
    ∃ head body, Rule.new head body s'.names = .ok r ∧
      Gathered s s' (head.flatMap Three.toList ++ body.flatMap Literal.terms) ∧
      (∀ a ∈ head, ∀ t ∈ a.toList, s'.Knows HeadWord t) ∧
      ∀ l ∈ body, l.atoms ≠ [] ∧ ∀ t ∈ l.terms, s'.Knows (LiteralWord l) t := by
  unfold Rule.read at h
  dsimp only at h
  generalize Text.trimChars (Text.dropEndWhile (· == '.') (Text.trimChars text.toList)) = cs at h
  cases ha : splitArrow cs with
  | none =>
    rw [ha] at h
    cases h
  | some parts =>
    rw [ha] at h
    obtain ⟨head, s₁, h₁, h⟩ := bind_eq_ok.mp h
    obtain ⟨body, s₂, h₂, h⟩ := bind_eq_ok.mp h
    obtain ⟨_, _, hs, h⟩ := bind_eq_ok.mp h
    cases hs
    obtain ⟨g₁, k₁⟩ := mapM_gathers (fun _ => HeadWord) (fun piece hp =>
      (readAtom_gathers piece).mono fun _ w hw => by
        obtain ⟨hword, hwithin⟩ := Text.of_mem_wordChars hw
        exact ⟨hword, fun hm => not_mem_of_mem_splitOn hp (hwithin.subset hm), fun hm =>
          (splitArrow_eq_some ha).2 (hm.trans (hwithin.trans (Text.of_mem_splitOn hp).1))⟩) h₁
    obtain ⟨g₂, k₂⟩ := mapM_gathers _
      (fun cs hcs => readLiteral_gathers <| show ',' ∉ cs from fun hm => by
      obtain ⟨piece, hp, rfl⟩ := List.mem_map.mp (List.mem_filter.mp hcs).1
      exact not_mem_of_mem_splitOn hp (Text.mem_of_mem_trimChars hm)) h₂
    cases hr : Rule.new head body s₂.names with
    | error e =>
      rw [hr] at h
      cases h
    | ok r' =>
      rw [hr] at h
      cases h
      have hne := (forall_of_mapM (fun _ _ _ _ _ h => atoms_ne_nil_of_readLiteral h) h₂).2
      exact ⟨head, body, hr, g₁.trans g₂, fun a ha t ht => g₂.knows (k₁ a ha t ht),
        fun l hl => ⟨hne l hl, k₂ l hl⟩⟩

/-- A text is read from a state without names. -/
theorem exists_read_of_parse {text : String} {d d' : Dictionary} {r : Rule}
    (h : Rule.parse text d = (.ok r, d')) :
    ∃ s', Rule.read text ⟨d, []⟩ = .ok r s' ∧ s'.dictionary = d' := by
  unfold Rule.parse at h
  split at h
  · rename_i s hs
    cases h
    exact ⟨s, hs, rfl⟩
  · cases h

theorem parse_of_read {text : String} {d : Dictionary} {r : Rule} {s' : Reading}
    (h : Rule.read text ⟨d, []⟩ = .ok r s') : Rule.parse text d = (.ok r, s'.dictionary) := by
  rw [Rule.parse, h]

end Rule

end Entail

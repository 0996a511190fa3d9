import HindleyMilner.Ty.Printer
import HindleyMilner.Proofs.Lexemes

/-!
The text of a type determines the type. Only the domain of a function is bracketed, and a codomain
or a quantified body goes on to the right as far as it can, so a type ends where the text ends or a
bracket closes. With that known of what follows, the text is cancelled from the left: its first word
tells what kind of type it is.
-/

namespace HindleyMilner.Ty

def baseNames : List String :=
  ["Int", "Bool", "String"]

def isPlain (x : String) : Bool :=
  x ≠ "" && x.toList.all fun c => Source.isLetter c || Json.isDigit c

def legible : Ty → Bool
  | prim p => baseNames.contains p
  | var x => isPlain x
  | arrow d c => d.legible && c.legible
  | poly bound b => bound.all isPlain && b.legible
  | foreign _ => false

def isPart (c : Char) : Bool :=
  Source.isLetter c || Json.isDigit c || c = '\''

def isBreak (c : Char) : Bool :=
  c = ' ' || c = '.' || c = '(' || c = ')'

/-- The first word of the text, nothing if it begins with a bracket. -/
def lead : Ty → String
  | prim p => p
  | var x => varText x
  | arrow d _ => if d.isCompound then "" else d.text
  | poly .. => "forall"
  | foreign s => s

def follow : Ty → List Char
  | prim _ | var _ | foreign _ => []
  | arrow d c =>
      (if d.isCompound then '(' :: (d.text.toList ++ [')']) else []) ++
        ' ' :: '-' :: '>' :: ' ' :: c.text.toList
  | poly bound b =>
      ' ' :: ((" ".intercalate (bound.map varText)).toList ++ '.' :: ' ' :: b.text.toList)

variable {t u d c : Ty} {x y : String} {rest rest' : List Char}

theorem toList_text (t : Ty) : t.text.toList = t.lead.toList ++ t.follow := by
  cases t with
  | prim | var | foreign => exact (List.append_nil _).symm
  | arrow d c => cases h : d.isCompound <;> simp [text, lead, follow, h]
  | poly bound b => simp [text, lead, follow]

section Names

theorem toList_varText (x : String) : (varText x).toList = '\'' :: x.toList := by
  simp [varText]

theorem varText_injective : Function.Injective varText := by
  intro x y same
  have texts := congrArg String.toList same
  rw [toList_varText, toList_varText, List.cons.injEq] at texts
  exact String.toList_inj.1 texts.2

theorem isBreak_of_isPart {c : Char} (part : isPart c = true) : isBreak c = false := by
  cases stops : isBreak c with
  | false => rfl
  | true =>
      simp only [isBreak, Bool.or_eq_true, decide_eq_true_eq, or_assoc] at stops
      rcases stops with rfl | rfl | rfl | rfl <;> revert part <;> decide

theorem isPart_of_mem_varText (plain : isPlain x = true) :
    ∀ c ∈ (varText x).toList, isPart c = true := by
  simp only [isPlain, Bool.and_eq_true, List.all_eq_true] at plain
  rw [toList_varText, List.forall_mem_cons]
  exact ⟨rfl, fun c hc => by rw [isPart, plain.2 c hc, Bool.true_or]⟩

theorem mem_toList_intercalate {sep : String} {words : List String} {c : Char}
    (h : c ∈ (sep.intercalate words).toList) : c ∈ sep.toList ∨ ∃ w ∈ words, c ∈ w.toList := by
  induction words with
  | nil => simp at h
  | cons w words ih =>
      cases words with
      | nil => exact .inr ⟨w, List.mem_cons_self, by rwa [String.intercalate_singleton] at h⟩
      | cons v words =>
          simp only [String.intercalate_cons_cons, String.toList_append, List.mem_append] at h
          rcases h with (h | h) | h
          · exact .inr ⟨w, List.mem_cons_self, h⟩
          · exact .inl h
          · exact (ih h).imp_right fun ⟨v, hv, hc⟩ => ⟨v, List.mem_cons_of_mem w hv, hc⟩

theorem mem_names {bound : List String} (plain : ∀ x ∈ bound, isPlain x = true) :
    ∀ c ∈ (" ".intercalate (bound.map varText)).toList, c = ' ' ∨ isPart c = true := by
  intro c hc
  rcases mem_toList_intercalate hc with space | ⟨w, hw, hc⟩
  · exact .inl (List.mem_singleton.1 space)
  · obtain ⟨x, hx, rfl⟩ := List.mem_map.1 hw
    exact .inr (isPart_of_mem_varText (plain x hx) c hc)

theorem intercalate_varText_injective {bound bound' : List String}
    (plain : ∀ x ∈ bound, isPlain x = true) (plain' : ∀ x ∈ bound', isPlain x = true)
    (same : " ".intercalate (bound.map varText) = " ".intercalate (bound'.map varText)) :
    bound = bound' := by
  have split : ∀ names : List String, (∀ x ∈ names, isPlain x = true) →
      ((" ".intercalate (names.map varText)).split ' ').toList.map (·.copy) =
        if names.map varText = [] then [""] else names.map varText := by
    intro names plain
    refine String.toList_split_intercalate fun word hw space => ?_
    obtain ⟨x, hx, rfl⟩ := List.mem_map.1 hw
    exact Bool.false_ne_true (isPart_of_mem_varText (plain x hx) ' ' space)
  have words := (split bound plain).symm.trans (same ▸ split bound' plain')
  have word : ∀ x, "" ≠ varText x := by
    intro x empty
    have texts := congrArg String.toList empty
    rw [toList_varText] at texts
    cases texts
  cases bound with
  | nil =>
      cases bound' with
      | nil => rfl
      | cons y bound' => simp [word] at words
  | cons x bound =>
      cases bound' with
      | nil => simp [(word x).symm] at words
      | cons y bound' => exact List.map_injective_iff.2 varText_injective words

end Names

section Atoms

theorem base_solid : ∀ p ∈ baseNames, p ≠ "" ∧ p ≠ "forall" ∧ p.toList.head? ≠ some '\'' ∧
    p.toList.any isBreak = false := by
  decide

theorem atom_solid (legible : t.legible = true) (atom : t.isCompound = false) :
    t.text ≠ "" ∧ t.text ≠ "forall" ∧ ∀ c ∈ t.text.toList, isBreak c = false := by
  cases t with
  | prim p =>
      obtain ⟨some, word, -, solid⟩ := base_solid p (by simpa [Ty.legible] using legible)
      exact ⟨some, word, by simpa [text] using solid⟩
  | var x =>
      have first : ∀ s : String, s.toList.head? ≠ some '\'' → (var x).text ≠ s := by
        rintro s other rfl
        exact other (by rw [text, toList_varText]; rfl)
      exact ⟨first "" (by decide), first "forall" (by decide), fun c hc =>
        isBreak_of_isPart (isPart_of_mem_varText legible c hc)⟩
  | arrow | poly => cases atom
  | foreign => cases legible

theorem base_ne_varText {p : String} (base : (prim p).legible = true) (x : String) :
    p ≠ varText x := by
  rintro rfl
  obtain ⟨-, -, first, -⟩ := base_solid (varText x) (by simpa [legible] using base)
  exact first (by rw [toList_varText]; rfl)

theorem atom_text_injective (ht : t.legible = true) (hu : u.legible = true)
    (atom : t.isCompound = false) (atom' : u.isCompound = false) (same : t.text = u.text) :
    t = u := by
  cases t with
  | prim p =>
      cases u with
      | prim q => exact congrArg prim same
      | var x => exact absurd same (base_ne_varText ht x)
      | arrow | poly => cases atom'
      | foreign => cases hu
  | var x =>
      cases u with
      | prim p => exact absurd same.symm (base_ne_varText hu x)
      | var y => exact congrArg var (varText_injective same)
      | arrow | poly => cases atom'
      | foreign => cases hu
  | arrow | poly => cases atom
  | foreign => cases ht

end Atoms

section Cancel

def Closes (rest : List Char) : Prop :=
  ∀ c ∈ rest.head?, c = ')'

theorem lead_solid (legible : t.legible = true) : ∀ c ∈ t.lead.toList, isBreak c = false := by
  cases t with
  | prim | var => exact (atom_solid legible rfl).2.2
  | arrow d c =>
      simp only [Ty.legible, Bool.and_eq_true] at legible
      cases shape : d.isCompound with
      | true => simp [lead, shape]
      | false => simpa [lead, shape] using (atom_solid legible.1 shape).2.2
  | poly =>
      have word : "forall".toList.any isBreak = false := by decide
      simpa [lead] using word
  | foreign => cases legible

theorem lead_arrow_ne (legible : (arrow d c).legible = true) : (arrow d c).lead ≠ "forall" := by
  simp only [Ty.legible, Bool.and_eq_true] at legible
  cases shape : d.isCompound with
  | true => simp [lead, shape]
  | false => simpa [lead, shape] using (atom_solid legible.1 shape).2.1

theorem follow_of_atom (atom : t.isCompound = false) : t.follow = [] := by
  cases t with
  | prim | var | foreign => rfl
  | arrow | poly => cases atom

theorem follow_of_compound (compound : t.isCompound = true) :
    ∃ c cs, t.follow = c :: cs ∧ isBreak c = true ∧ c ≠ ')' := by
  cases t with
  | prim | var | foreign => cases compound
  | arrow d c =>
      cases shape : d.isCompound with
      | true => exact ⟨'(', _, by simp [follow, shape]; rfl, by decide⟩
      | false => exact ⟨' ', _, by simp [follow, shape]; rfl, by decide⟩
  | poly bound b => exact ⟨' ', _, rfl, by decide⟩

theorem follow_breaks (t : Ty) (closes : Closes rest) :
    ∀ c ∈ (t.follow ++ rest).head?, isBreak c = true := by
  intro c first
  cases shape : t.isCompound with
  | true =>
      obtain ⟨d, cs, split, breaks, -⟩ := follow_of_compound shape
      rw [split] at first
      cases first
      exact breaks
  | false =>
      rw [follow_of_atom shape] at first
      rw [closes c first]
      rfl

theorem atom_of_follow (closes : Closes rest) (atom : t.isCompound = false)
    (same : t.follow ++ rest = u.follow ++ rest') : u.isCompound = false := by
  cases shape : u.isCompound with
  | false => rfl
  | true =>
      obtain ⟨c, cs, split, -, other⟩ := follow_of_compound shape
      rw [follow_of_atom atom, split] at same
      exact absurd (closes c (by rw [List.nil_append] at same; rw [same]; rfl)) other

theorem cancel_lead (ht : t.legible = true) (hu : u.legible = true) (closes : Closes rest)
    (closes' : Closes rest') (same : t.text.toList ++ rest = u.text.toList ++ rest') :
    t.lead = u.lead ∧ t.follow ++ rest = u.follow ++ rest' := by
  rw [toList_text, toList_text, List.append_assoc, List.append_assoc] at same
  obtain ⟨leads, follows⟩ := Source.solid_append_inj (lead_solid ht) (lead_solid hu)
    (follow_breaks t closes) (follow_breaks u closes') same
  exact ⟨String.toList_inj.1 leads, follows⟩

/-- Text that goes on after the type in the same way is that of the same type. -/
def Cancels (t : Ty) : Prop :=
  ∀ {u : Ty} {rest rest' : List Char}, t.legible = true → u.legible = true → Closes rest →
    Closes rest' → t.text.toList ++ rest = u.text.toList ++ rest' → t = u ∧ rest = rest'

theorem cancels_atom (atom : t.isCompound = false) : t.Cancels := by
  intro u rest rest' ht hu closes closes' same
  obtain ⟨leads, follows⟩ := cancel_lead ht hu closes closes' same
  have atom' := atom_of_follow closes atom follows
  rw [follow_of_atom atom, follow_of_atom atom'] at follows
  have texts : t.text = u.text := by
    apply String.toList_inj.1
    rw [toList_text, toList_text, leads, follow_of_atom atom, follow_of_atom atom']
  exact ⟨atom_text_injective ht hu atom atom' texts, follows⟩

theorem cancel_domain {d' c' : Ty} (hd : d.legible = true) (hd' : d'.legible = true)
    (cancels : d.Cancels) (leads : (arrow d c).lead = (arrow d' c').lead)
    (follows : (arrow d c).follow ++ rest = (arrow d' c').follow ++ rest') :
    d = d' ∧ c.text.toList ++ rest = c'.text.toList ++ rest' := by
  cases shape : d.isCompound with
  | true =>
      cases shape' : d'.isCompound with
      | true =>
          have bracket : ∀ cs, Closes (')' :: cs) := fun cs c first => (Option.some.inj first).symm
          simp only [follow, shape, shape', if_true, List.cons_append, List.append_assoc,
            List.cons.injEq, true_and] at follows
          obtain ⟨rfl, rests⟩ := cancels hd hd' (bracket _) (bracket _) follows
          simpa using rests
      | false =>
          simp only [lead, shape, shape', if_true, Bool.false_eq_true, if_false] at leads
          exact absurd leads.symm (atom_solid hd' shape').1
  | false =>
      cases shape' : d'.isCompound with
      | true =>
          simp only [lead, shape, shape', if_true, Bool.false_eq_true, if_false] at leads
          exact absurd leads (atom_solid hd shape).1
      | false =>
          simp only [lead, shape, shape', Bool.false_eq_true, if_false] at leads
          refine ⟨atom_text_injective hd hd' shape shape' leads, ?_⟩
          simpa [follow, shape, shape'] using follows

theorem cancel_quantifier {bound bound' : List String} {b b' : Ty}
    (plain : ∀ x ∈ bound, isPlain x = true) (plain' : ∀ x ∈ bound', isPlain x = true)
    (follows : (poly bound b).follow ++ rest = (poly bound' b').follow ++ rest') :
    bound = bound' ∧ b.text.toList ++ rest = b'.text.toList ++ rest' := by
  have undotted : ∀ names : List String, (∀ x ∈ names, isPlain x = true) →
      ∀ c ∈ (" ".intercalate (names.map varText)).toList, decide (c = '.') = false := by
    intro names plain c hc
    rw [decide_eq_false_iff_not]
    rintro rfl
    rcases mem_names plain '.' hc with space | part
    · cases space
    · cases part
  have dot : ∀ cs, ∀ c ∈ ('.' :: cs).head?, decide (c = '.') = true := by
    rintro cs c ⟨⟩
    rfl
  simp only [follow, List.cons_append, List.append_assoc, List.cons.injEq, true_and] at follows
  obtain ⟨names, rests⟩ := Source.solid_append_inj (undotted bound plain) (undotted bound' plain')
    (dot _) (dot _) follows
  exact ⟨intercalate_varText_injective plain plain' (String.toList_inj.1 names),
    by simpa using rests⟩

theorem cancels (t : Ty) : t.Cancels := by
  induction t with
  | prim | var => exact cancels_atom rfl
  | foreign => exact fun ht => nomatch ht
  | arrow d c ihd ihc =>
      intro u rest rest' ht hu closes closes' same
      obtain ⟨leads, follows⟩ := cancel_lead ht hu closes closes' same
      cases u with
      | prim | var => cases atom_of_follow closes' rfl follows.symm
      | foreign => cases hu
      | poly bound b => exact absurd leads (lead_arrow_ne ht)
      | arrow d' c' =>
          simp only [legible, Bool.and_eq_true] at ht hu
          obtain ⟨rfl, texts⟩ := cancel_domain ht.1 hu.1 ihd leads follows
          obtain ⟨rfl, rests⟩ := ihc ht.2 hu.2 closes closes' texts
          exact ⟨rfl, rests⟩
  | poly bound b ih =>
      intro u rest rest' ht hu closes closes' same
      obtain ⟨leads, follows⟩ := cancel_lead ht hu closes closes' same
      cases u with
      | prim | var => cases atom_of_follow closes' rfl follows.symm
      | foreign => cases hu
      | arrow d c => exact absurd leads.symm (lead_arrow_ne hu)
      | poly bound' b' =>
          simp only [legible, Bool.and_eq_true, List.all_eq_true] at ht hu
          obtain ⟨rfl, texts⟩ := cancel_quantifier ht.1 hu.1 follows
          obtain ⟨rfl, rests⟩ := ih ht.2 hu.2 closes closes' texts
          exact ⟨rfl, rests⟩

end Cancel

/-- Types of base types and of names of letters and digits have one text only if they are equal. -/
theorem text_determines {t u : Ty} (ht : t.legible = true) (hu : u.legible = true) :
    t.text = u.text ↔ t = u := by
  constructor
  · intro same
    have nothing : Closes [] := nofun
    exact (cancels t ht hu nothing nothing (congrArg (fun s => s.toList ++ []) same)).1
  · exact congrArg text

theorem text_determines_bracket :
    let t : Ty := .poly ["é", "a1", "a1"] (.arrow (.var "é") (.poly [] (.arrow .int (.var "a1"))))
    let u : Ty := .arrow (.poly ["é", "a1", "a1"] (.var "é")) (.poly [] (.arrow .int (.var "a1")))
    t.legible = true ∧ u.legible = true ∧
      t.text = "forall 'é 'a1 'a1. 'é -> forall . Int -> 'a1" ∧
      u.text = "(forall 'é 'a1 'a1. 'é) -> forall . Int -> 'a1" ∧ (t.text = u.text ↔ t = u) := by
  intro t u
  have legible : t.legible = true := by decide
  have legible' : u.legible = true := by decide
  exact ⟨legible, legible', by decide, by decide, text_determines legible legible'⟩

end HindleyMilner.Ty

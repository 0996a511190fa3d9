/-!
Types: named base types, placeholders, one-argument functions, and types quantified over some
names. `foreign` stands where a value that is not a type was handed in; only its text is known.

Replacing a placeholder does not enter a quantified type that binds the name. It does not rename
either, so the names of a replacement can be captured.
-/

namespace HindleyMilner

inductive Ty where
  | prim (name : String)
  | var (name : String)
  | arrow (domain codomain : Ty)
  | poly (bound : List String) (body : Ty)
  | foreign (text : String)
deriving DecidableEq, Inhabited, Repr

namespace Ty

abbrev int : Ty := prim "Int"

abbrev bool : Ty := prim "Bool"

abbrev string : Ty := prim "String"

def size : Ty → Nat
  | prim _ | var _ | foreign _ => 1
  | arrow d c => d.size + c.size + 1
  | poly _ b => b.size + 1

/-- Puts `replacement` for the free placeholder `name`. -/
def subst (t : Ty) (name : String) (replacement : Ty) : Ty :=
  match t with
  | prim p => prim p
  | var x => if x = name then replacement else var x
  | arrow d c => arrow (d.subst name replacement) (c.subst name replacement)
  | poly bound b => if name ∈ bound then poly bound b else poly bound (b.subst name replacement)
  | foreign s => foreign s

/-- The first foreign value that a replacement of `name` runs into. -/
def obstacle (name : String) : Ty → Option String
  | prim _ | var _ => none
  | arrow d c => d.obstacle name <|> c.obstacle name
  | poly bound b => if name ∈ bound then none else b.obstacle name
  | foreign s => some s

/-- Whether `name` appears at all, as a placeholder or in a list of bound names. -/
def mentions (name : String) : Ty → Bool
  | prim _ | foreign _ => false
  | var x => x = name
  | arrow d c => d.mentions name || c.mentions name
  | poly bound b => name ∈ bound || b.mentions name

/-- Free placeholders from left to right, each as often as it stands there. -/
def occurrences : Ty → List String
  | prim _ | foreign _ => []
  | var x => [x]
  | arrow d c => d.occurrences ++ c.occurrences
  | poly bound b => b.occurrences.filter (· ∉ bound)

/-- Free placeholders in order of first appearance. -/
def free (t : Ty) : List String :=
  t.occurrences.eraseDups

theorem mem_free {x : String} {t : Ty} : x ∈ t.free ↔ x ∈ t.occurrences :=
  List.mem_eraseDups

theorem mentions_of_mem_occurrences {x : String} {t : Ty} (h : x ∈ t.occurrences) :
    t.mentions x = true := by
  induction t with
  | prim | foreign => simp [occurrences] at h
  | var y => simpa [occurrences, mentions, eq_comm] using h
  | arrow d c ihd ihc =>
      simp only [occurrences, List.mem_append] at h
      rcases h with h | h
      · simp [mentions, ihd h]
      · simp [mentions, ihc h]
  | poly bound b ih =>
      simp only [occurrences, List.mem_filter] at h
      simp [mentions, ih h.1]

/-- A replacement leaves the other placeholders and can bring in those of what it puts in. -/
theorem mem_occurrences_subst {x name : String} {r t : Ty}
    (h : x ∈ (t.subst name r).occurrences) :
    (x ∈ t.occurrences ∧ x ≠ name) ∨ x ∈ r.occurrences := by
  induction t with
  | prim | foreign => simp [subst, occurrences] at h
  | var y =>
      by_cases hy : y = name
      · simp only [subst, hy, ↓reduceIte] at h
        exact .inr h
      · simp only [subst, hy, ↓reduceIte, occurrences, List.mem_singleton] at h
        subst h
        exact .inl ⟨by simp [occurrences], hy⟩
  | arrow d c ihd ihc =>
      simp only [subst, occurrences, List.mem_append] at h
      rcases h with h | h
      · rcases ihd h with ⟨hm, hn⟩ | hr
        · exact .inl ⟨by simp [occurrences, hm], hn⟩
        · exact .inr hr
      · rcases ihc h with ⟨hm, hn⟩ | hr
        · exact .inl ⟨by simp [occurrences, hm], hn⟩
        · exact .inr hr
  | poly bound b ih =>
      by_cases hb : name ∈ bound
      · simp only [subst, hb, ↓reduceIte, occurrences, List.mem_filter] at h
        refine .inl ⟨by simpa only [occurrences, List.mem_filter] using h, ?_⟩
        rintro rfl
        simp [hb] at h
      · simp only [subst, hb, ↓reduceIte, occurrences, List.mem_filter] at h
        rcases ih h.1 with ⟨hm, hn⟩ | hr
        · exact .inl ⟨by simp only [occurrences, List.mem_filter]; exact ⟨hm, h.2⟩, hn⟩
        · exact .inr hr

end Ty

end HindleyMilner

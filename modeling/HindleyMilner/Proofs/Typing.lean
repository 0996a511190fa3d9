import HindleyMilner.Infer.Generate
import HindleyMilner.Proofs.Scheme

/-!
The typing rules, without placeholders to solve for. An identifier has every instance of the scheme
of its innermost binding. A plain `let` binds its name to the closure of a type of the value over
the context. A recursive `let` lets the value see its own name at one type, which need not be the
type of the value, and binds the name to the type of the value, unquantified, in the body. Each form
of expression is typed by its own rules only, which the lemmas after the rules state.
-/

namespace HindleyMilner

def Assignment.Mono (θ : Assignment) : Prop :=
  ∀ x, (θ x).Mono

theorem Assignment.mono_var : Assignment.Mono .var :=
  fun _ => trivial

theorem Assignment.Mono.ite {θ η : Assignment} (hθ : θ.Mono) (hη : η.Mono) (p : String → Prop)
    [DecidablePred p] : Assignment.Mono fun x => if p x then θ x else η x := by
  intro x
  by_cases h : p x
  · simpa [h] using hθ x
  · simpa [h] using hη x

/-- `t` comes from `scheme` by types for the quantified names. -/
def Instance (scheme t : Ty) : Prop :=
  ∃ ρ : Assignment, ρ.Mono ∧ (∀ x, x ∉ scheme.quantified → ρ x = .var x) ∧ t = scheme.core.assign ρ

/-- `scheme` quantifies just those names of `t` that the context leaves open. -/
def Closure (G : Env) (t scheme : Ty) : Prop :=
  scheme.core = t ∧ ∀ x, x ∈ scheme.quantified ↔
    x ∈ t.occurrences ∧ ∀ binding ∈ G, x ∉ binding.2.occurrences

inductive HasType : Env → Program → Ty → Prop
  | int {G place value} : HasType G (.int place value) .int
  | bool {G place value} : HasType G (.bool place value) .bool
  | str {G place value} : HasType G (.str place value) .string
  | ident {G place name scheme t} :
      G.get? name = some scheme → Instance scheme t → HasType G (.ident place name) t
  | func {G place parameter body d c} :
      d.Mono → HasType (G.extend parameter d) body c →
      HasType G (.func place parameter body) (.arrow d c)
  | not {G place operand} :
      HasType G operand .bool → HasType G (.not place operand) .bool
  | arithmetic {G place op left right} :
      op.category = .arithmetic → HasType G left .int → HasType G right .int →
      HasType G (.binary place op left right) .int
  | concatenation {G place op left right} :
      op.category = .concatenation → HasType G left .string → HasType G right .string →
      HasType G (.binary place op left right) .string
  | comparison {G place op left right t} :
      op.category = .comparison → HasType G left t → HasType G right t →
      HasType G (.binary place op left right) .bool
  | logical {G place op left right} :
      op.category = .logical → HasType G left .bool → HasType G right .bool →
      HasType G (.binary place op left right) .bool
  | cond {G place test yes no t} :
      HasType G test .bool → HasType G yes t → HasType G no t →
      HasType G (.cond place test yes no) t
  | call {G place callee argument d c} :
      HasType G callee (.arrow d c) → HasType G argument d →
      HasType G (.call place callee argument) c
  | letPlain {G place name value body t scheme u} :
      HasType G value t → Closure G t scheme → HasType (G.extend name scheme) body u →
      HasType G (.letIn place name false value body) u
  | letRec {G place name value body self t u} :
      self.Mono → HasType (G.extend name self) value t → HasType (G.extend name t) body u →
      HasType G (.letIn place name true value body) u

def Operator.Category.Types (category : Operator.Category) (operand result : Ty) : Prop :=
  match category.operand? with
  | some t => operand = t ∧ result = t
  | none => result = .bool

section

variable {G : Env} {place : Option Location} {name : Text} {e e' test value body : Program}
  {op : Operator} {t : Ty}

theorem hasType_int {n : Int} : HasType G (.int place n) t ↔ t = .int := by
  constructor
  · rintro ⟨⟩
    rfl
  · rintro rfl
    exact .int

theorem hasType_bool {b : Bool} : HasType G (.bool place b) t ↔ t = .bool := by
  constructor
  · rintro ⟨⟩
    rfl
  · rintro rfl
    exact .bool

theorem hasType_str : HasType G (.str place name) t ↔ t = .string := by
  constructor
  · rintro ⟨⟩
    rfl
  · rintro rfl
    exact .str

theorem hasType_ident :
    HasType G (.ident place name) t ↔ ∃ scheme, G.get? name = some scheme ∧ Instance scheme t := by
  constructor
  · rintro ⟨⟩
    exact ⟨_, ‹_›, ‹_›⟩
  · rintro ⟨scheme, found, inst⟩
    exact .ident found inst

theorem hasType_func : HasType G (.func place name body) t ↔
    ∃ d c, t = .arrow d c ∧ d.Mono ∧ HasType (G.extend name d) body c := by
  constructor
  · rintro ⟨⟩
    exact ⟨_, _, rfl, ‹_›, ‹_›⟩
  · rintro ⟨d, c, rfl, mono, typed⟩
    exact .func mono typed

theorem hasType_not : HasType G (.not place e) t ↔ t = .bool ∧ HasType G e .bool := by
  constructor
  · rintro ⟨⟩
    exact ⟨rfl, ‹_›⟩
  · rintro ⟨rfl, typed⟩
    exact .not typed

theorem hasType_binary : HasType G (.binary place op e e') t ↔
    ∃ u, op.category.Types u t ∧ HasType G e u ∧ HasType G e' u := by
  constructor
  · intro h
    cases h with
    | arithmetic category left right => exact ⟨_, by rw [category]; exact ⟨rfl, rfl⟩, left, right⟩
    | concatenation category left right =>
        exact ⟨_, by rw [category]; exact ⟨rfl, rfl⟩, left, right⟩
    | comparison category left right => exact ⟨_, by rw [category]; rfl, left, right⟩
    | logical category left right => exact ⟨_, by rw [category]; exact ⟨rfl, rfl⟩, left, right⟩
  · rintro ⟨u, types, left, right⟩
    cases category : op.category with
    | arithmetic =>
        rw [category] at types
        obtain ⟨rfl, rfl⟩ := types
        exact .arithmetic category left right
    | concatenation =>
        rw [category] at types
        obtain ⟨rfl, rfl⟩ := types
        exact .concatenation category left right
    | comparison =>
        rw [category] at types
        obtain rfl : t = .bool := types
        exact .comparison category left right
    | logical =>
        rw [category] at types
        obtain ⟨rfl, rfl⟩ := types
        exact .logical category left right

theorem hasType_cond : HasType G (.cond place test e e') t ↔
    HasType G test .bool ∧ HasType G e t ∧ HasType G e' t := by
  constructor
  · rintro ⟨⟩
    exact ⟨‹_›, ‹_›, ‹_›⟩
  · rintro ⟨test, yes, no⟩
    exact .cond test yes no

theorem hasType_call : HasType G (.call place e e') t ↔
    ∃ d, HasType G e (.arrow d t) ∧ HasType G e' d := by
  constructor
  · rintro ⟨⟩
    exact ⟨_, ‹_›, ‹_›⟩
  · rintro ⟨d, callee, argument⟩
    exact .call callee argument

theorem hasType_letPlain : HasType G (.letIn place name false value body) t ↔
    ∃ v scheme, HasType G value v ∧ Closure G v scheme ∧ HasType (G.extend name scheme) body t := by
  constructor
  · rintro ⟨⟩
    exact ⟨_, _, ‹_›, ‹_›, ‹_›⟩
  · rintro ⟨v, scheme, typed, closure, rest⟩
    exact .letPlain typed closure rest

theorem hasType_letRec : HasType G (.letIn place name true value body) t ↔
    ∃ self v, self.Mono ∧ HasType (G.extend name self) value v ∧
      HasType (G.extend name v) body t := by
  constructor
  · rintro ⟨⟩
    exact ⟨_, _, ‹_›, ‹_›, ‹_›⟩
  · rintro ⟨self, v, mono, typed, rest⟩
    exact .letRec mono typed rest

end

theorem instance_self {t : Ty} (mono : t.Mono) : Instance t t := by
  refine ⟨.var, Assignment.mono_var, fun _ _ => rfl, ?_⟩
  rw [mono.core_eq, Ty.assign_var]

theorem Instance.eq {t u : Ty} (mono : t.Mono) (h : Instance t u) : u = t := by
  obtain ⟨ρ, -, fixed, rfl⟩ := h
  have same : ∀ x ∈ t.occurrences, ρ x = .var x := fun x _ =>
    fixed x (by simp [mono.quantified_eq])
  rw [mono.core_eq, Ty.assign_congr same, Ty.assign_var]

theorem closure_generalize {t : Ty} (mono : t.Mono) (G : Env) : Closure G t (G.generalize t) := by
  refine ⟨Env.core_generalize mono G, fun x => ?_⟩
  rw [Env.quantified_generalize mono, Env.mem_free]
  simp

theorem Closure.mem_quantified {G : Env} {t scheme : Ty} (h : Closure G t scheme) (x : String) :
    x ∈ scheme.quantified ↔ x ∈ t.occurrences ∧ x ∉ G.free := by
  rw [h.2, Env.mem_free]
  simp

end HindleyMilner

import HindleyMilner.Proofs.Principal

/-!
Typing in other contexts. What a typing needs of its context are instances for the free identifiers
of the expression. So it can be moved to any context that has these instances, and types can be put
for its placeholders on the way. In every context a typed expression has a scheme whose instances
are exactly its types there: the context is first brought into the form that inference asks for,
with quantified names that are free nowhere in it.
-/

namespace HindleyMilner

namespace Env

def Schemes (G : Env) : Prop :=
  ∀ binding ∈ G, binding.2.Scheme

theorem Schemes.nil : Schemes [] := by
  simp [Schemes]

theorem Schemes.extend {G : Env} (h : G.Schemes) (name : Text) {t : Ty} (scheme : t.Scheme) :
    (G.extend name t).Schemes :=
  List.forall_mem_cons.2 ⟨scheme, h⟩

theorem Schemes.get? {G : Env} (h : G.Schemes) {name : Text} {t : Ty}
    (found : G.get? name = some t) : t.Scheme :=
  h _ (mem_of_get? found)

end Env

theorem Closure.scheme {G : Env} {t scheme : Ty} (closure : Closure G t scheme) (mono : t.Mono) :
    scheme.Scheme := by
  rw [Ty.Scheme, closure.1]
  exact mono

theorem HasType.mono {G : Env} {e : Program} {t : Ty} (h : HasType G e t) (schemes : G.Schemes) :
    t.Mono := by
  induction h with
  | int | bool | str | not | arithmetic | concatenation | comparison | logical => trivial
  | ident found inst =>
      obtain ⟨ρ, hρ, -, rfl⟩ := inst
      exact (schemes.get? found).assign fun x _ => hρ x
  | func mono _ ih => exact ⟨mono, ih (schemes.extend _ mono.scheme)⟩
  | cond _ _ _ _ ihy _ => exact ihy schemes
  | call _ _ ihf _ => exact (ihf schemes).2
  | letPlain _ closure _ ihv ihb => exact ihb (schemes.extend _ (closure.scheme (ihv schemes)))
  | letRec mono _ _ ihv ihb =>
      exact ihb (schemes.extend _ (ihv (schemes.extend _ mono.scheme)).scheme)

theorem instance_assign {scheme : Ty} {ρ : Assignment} (hρ : ρ.Mono)
    (fixed : ∀ y ∈ scheme.occurrences, ρ y = .var y) : Instance scheme (scheme.core.assign ρ) := by
  refine ⟨fun x => if x ∈ scheme.quantified then ρ x else .var x, hρ.ite Assignment.mono_var _,
    fun x hx => if_neg hx, Ty.assign_congr fun x hx => ?_⟩
  by_cases quantified : x ∈ scheme.quantified
  · rw [if_pos quantified]
  · rw [if_neg quantified, fixed x (Ty.mem_occurrences.2 ⟨hx, quantified⟩)]

/-- For the free identifiers of `e`, the context `D` has the instances that `G` gives under any
assignment that agrees with `σ` on the free names. -/
def Covers (e : Program) (σ : Assignment) (G D : Env) : Prop :=
  ∀ x ∈ e.freeNames, ∀ scheme, G.get? x = some scheme → ∃ wider, D.get? x = some wider ∧
    ∀ ρ : Assignment, ρ.Mono → (∀ y ∈ scheme.occurrences, ρ y = σ y) →
      Instance wider (scheme.core.assign ρ)

namespace Covers

variable {e e' : Program} {σ τ : Assignment} {G D : Env} {name : Text}

theorem of_get?_eq (same : ∀ x ∈ e.freeNames, D.get? x = G.get? x) : Covers e .var G D := by
  intro x hx scheme found
  exact ⟨scheme, (same x hx).trans found, fun ρ hρ fixed => instance_assign hρ fixed⟩

theorem part (h : Covers e σ G D) (names : e'.freeNames ⊆ e.freeNames) : Covers e' σ G D :=
  fun x hx => h x (names hx)

theorem not {place : Option Location} (h : Covers (.not place e) σ G D) : Covers e σ G D :=
  h.part (List.Subset.refl _)

theorem binary {place : Option Location} {op : Operator}
    (h : Covers (.binary place op e e') σ G D) : Covers e σ G D ∧ Covers e' σ G D :=
  ⟨h.part (by simp [Expr.freeNames_binary]), h.part (by simp [Expr.freeNames_binary])⟩

theorem cond {place : Option Location} {test : Program} (h : Covers (.cond place test e e') σ G D) :
    Covers test σ G D ∧ Covers e σ G D ∧ Covers e' σ G D :=
  ⟨h.part (by simp [Expr.freeNames_cond]), h.part (by simp [Expr.freeNames_cond]),
    h.part (by simp [Expr.freeNames_cond])⟩

theorem call {place : Option Location} (h : Covers (.call place e e') σ G D) :
    Covers e σ G D ∧ Covers e' σ G D :=
  ⟨h.part (by simp [Expr.freeNames_call]), h.part (by simp [Expr.freeNames_call])⟩

theorem congr (h : Covers e σ G D) (agree : ∀ y ∈ G.free, τ y = σ y) : Covers e τ G D := by
  intro x hx scheme found
  obtain ⟨wider, named, instances⟩ := h x hx scheme found
  refine ⟨wider, named, fun ρ hρ same => instances ρ hρ fun y hy => ?_⟩
  rw [same y hy, agree y (Env.mem_free.2 ⟨(x, scheme), Env.mem_of_get? found, hy⟩)]

theorem extend (h : Covers e σ G D) (names : ∀ y ∈ e'.freeNames, y ≠ name → y ∈ e.freeNames)
    {scheme wider : Ty} (instances : ∀ ρ : Assignment, ρ.Mono →
      (∀ y ∈ scheme.occurrences, ρ y = σ y) → Instance wider (scheme.core.assign ρ)) :
    Covers e' σ (G.extend name scheme) (D.extend name wider) := by
  intro x hx found hfound
  by_cases same : x = name
  · subst same
    rw [Env.get?_extend_self] at hfound
    cases hfound
    exact ⟨wider, Env.get?_extend_self D x wider, instances⟩
  · rw [Env.get?_extend_ne same] at hfound ⊢
    exact h x (names x hx same) found hfound

theorem extend_mono (h : Covers e σ G D) (hσ : σ.Mono)
    (names : ∀ y ∈ e'.freeNames, y ≠ name → y ∈ e.freeNames) {t : Ty} (mono : t.Mono) :
    Covers e' σ (G.extend name t) (D.extend name (t.assign σ)) := by
  refine h.extend names fun ρ _ same => ?_
  rw [mono.core_eq, Ty.assign_congr same]
  exact instance_self (mono.assign fun x _ => hσ x)

end Covers

/-- A typing moves to every context that has the instances it needs. -/
theorem HasType.covered {G D : Env} {e : Program} {t : Ty} {σ : Assignment} (h : HasType G e t)
    (schemes : G.Schemes) (hσ : σ.Mono) (covers : Covers e σ G D) : HasType D e (t.assign σ) := by
  induction h generalizing D σ with
  | int => exact .int
  | bool => exact .bool
  | str => exact .str
  | @ident G place name scheme t found inst =>
      obtain ⟨ρ, hρ, fixed, rfl⟩ := inst
      obtain ⟨wider, named, instances⟩ :=
        covers name (by simp [Expr.freeNames_ident]) scheme found
      refine .ident named ?_
      rw [Ty.assign_assign (schemes.get? found)]
      refine instances _ (fun x => (hρ x).assign fun y _ => hσ y) fun y hy => ?_
      rw [fixed y (Ty.mem_occurrences.1 hy).2, Ty.assign]
  | func mono _ ih =>
      refine .func (mono.assign fun x _ => hσ x) (ih (schemes.extend _ mono.scheme) hσ ?_)
      exact covers.extend_mono hσ (fun y hy other => Expr.mem_freeNames_func.2 ⟨hy, other⟩) mono
  | not _ ih => exact .not (ih schemes hσ covers.not)
  | arithmetic category _ _ ihl ihr =>
      exact .arithmetic category (ihl schemes hσ covers.binary.1) (ihr schemes hσ covers.binary.2)
  | concatenation category _ _ ihl ihr =>
      exact .concatenation category (ihl schemes hσ covers.binary.1)
        (ihr schemes hσ covers.binary.2)
  | comparison category _ _ ihl ihr =>
      exact .comparison category (ihl schemes hσ covers.binary.1) (ihr schemes hσ covers.binary.2)
  | logical category _ _ ihl ihr =>
      exact .logical category (ihl schemes hσ covers.binary.1) (ihr schemes hσ covers.binary.2)
  | cond _ _ _ iht ihy ihn =>
      obtain ⟨test, yes, no⟩ := covers.cond
      exact .cond (iht schemes hσ test) (ihy schemes hσ yes) (ihn schemes hσ no)
  | call _ _ ihf iha => exact .call (ihf schemes hσ covers.call.1) (iha schemes hσ covers.call.2)
  | @letPlain G place name value body t scheme u typed closure _ ihv ihb =>
      have mono := typed.mono schemes
      -- The value is typed with new names for the quantified ones, which `D` may use freely.
      let avoid := D.free ++ t.occurrences.flatMap fun x => (σ x).occurrences
      let σ' : Assignment := fun x => if x ∈ scheme.quantified then .var (lengthen avoid x) else σ x
      have names : Assignment.Mono fun y => .var (lengthen avoid y) := fun _ => trivial
      have hσ' : σ'.Mono := names.ite hσ _
      have coversValue : Covers value σ' G D := by
        refine (covers.part fun y hy => ?_).congr fun y hy => ?_
        · exact Expr.mem_freeNames_letIn.2 (.inl ⟨hy, by simp⟩)
        · exact if_neg fun quantified => ((closure.mem_quantified y).1 quantified).2 hy
      have typedValue := ihv schemes hσ' coversValue
      have renamed := closure_generalize (mono.assign fun x _ => hσ' x) D
      refine .letPlain typedValue renamed (ihb (schemes.extend _ (closure.scheme mono)) hσ ?_)
      refine covers.extend (fun y hy other => Expr.mem_freeNames_letIn.2 (.inr ⟨hy, other⟩))
        fun ρ hρ same => ?_
      rw [closure.1]
      refine instance_closure_renamed mono (lengthen_injective avoid) (fun x mem => ?_)
        (fun x hx y hy => ?_) (fun x hx => ((closure.mem_quantified x).1 hx).1) renamed hρ
        fun x hx quantified => same x (Ty.mem_occurrences.2 ⟨closure.1 ▸ hx, quantified⟩)
      · exact lengthen_notMem avoid x (List.mem_append_left _ mem)
      · exact lengthen_notMem avoid y
          (List.mem_append_right _ (List.mem_flatMap.2 ⟨x, hx, hy⟩))
  | @letRec G place name value body self t u mono typed _ ihv ihb =>
      have inner := schemes.extend name mono.scheme
      have solved := typed.mono inner
      refine .letRec (mono.assign fun x _ => hσ x) (ihv inner hσ ?_)
        (ihb (schemes.extend name solved.scheme) hσ ?_)
      · exact covers.extend_mono hσ
          (fun y hy other => Expr.mem_freeNames_letIn.2 (.inl ⟨hy, fun _ => other⟩)) mono
      · exact covers.extend_mono hσ
          (fun y hy other => Expr.mem_freeNames_letIn.2 (.inr ⟨hy, other⟩)) solved

theorem hasType_congr {G D : Env} {e : Program} {t : Ty} (hG : G.Schemes) (hD : D.Schemes)
    (same : ∀ x ∈ e.freeNames, D.get? x = G.get? x) : HasType G e t ↔ HasType D e t := by
  constructor
  · intro h
    simpa [Ty.assign_var] using h.covered hG Assignment.mono_var (.of_get?_eq same)
  · intro h
    simpa [Ty.assign_var] using
      h.covered hD Assignment.mono_var (.of_get?_eq fun x hx => (same x hx).symm)

theorem Generates.unique {env : Env} {n m m' : Nat} {e : Program} {g g' : Generated}
    (h : Generates env n e g m) (h' : Generates env n e g' m') : g' = g := by
  obtain ⟨events, ran⟩ := h.run #[]
  obtain ⟨events', ran'⟩ := h'.run #[]
  cases ran.symm.trans ran'
  rfl

theorem Supply.exists_not_ahead (names : List String) :
    ∃ n, ∀ x ∈ names, ¬ Supply.Ahead n x := by
  induction names with
  | nil => exact ⟨0, by simp⟩
  | cons y names ih =>
      obtain ⟨n, hn⟩ := ih
      have single : ∃ m, ¬ Supply.Ahead m y := by
        by_cases named : ∃ i, y = Supply.name i
        · obtain ⟨i, rfl⟩ := named
          exact ⟨i + 1, by rw [Supply.name_ahead]; omega⟩
        · exact ⟨0, fun ⟨i, _, equal⟩ => named ⟨i, equal⟩⟩
      obtain ⟨m, hm⟩ := single
      refine ⟨max n m, List.forall_mem_cons.2 ⟨fun ahead => hm (ahead.earlier (by omega)), ?_⟩⟩
      exact fun x hx ahead => hn x hx (ahead.earlier (by omega))

section

variable {env : Env} {n : Nat}

theorem Above.self (env : Env) : Above .var env env :=
  fun _ scheme found => ⟨scheme, found, fun _ hρ fixed => instance_assign hρ fixed⟩

theorem Below.self (env : Env) : Below .var env env := by
  refine ⟨fun x scheme found => ⟨scheme, found, ?_⟩, fun y hy z hz => ?_⟩
  · rintro _ ⟨ρ, hρ, fixed, rfl⟩
    exact ⟨ρ, hρ, fun y hy => fixed y (Ty.mem_occurrences.1 hy).2, rfl⟩
  · simp only [Ty.occurrences, List.mem_singleton] at hz
    exact hz ▸ hy

theorem Env.Ready.exists_scheme (ready : env.Ready n) {e : Program} {t₀ : Ty}
    (h : HasType env e t₀) : ∃ t, HasType env e t ∧ ∀ u, HasType env e u →
      Instance (env.generalize t) u := by
  obtain ⟨g, m, η, realizes⟩ := h.realizable env n .var ready Assignment.mono_var (.self env)
  have bounded := realizes.generates.bounded ready.toPlain
  obtain ⟨solution, solves⟩ := Unify.solve_of_unifies bounded.mono realizes.unifies
  obtain ⟨refined, settled, -⟩ := realizes.generates.exists_settled ready solves ""
  obtain ⟨ψ, hψ, unifies, agree, instances⟩ :=
    settled.exists_general (G := env) bounded.type.1 realizes.mono realizes.unifies
  have fixes := realizes.agree_free ready
  have above : Above ψ env env := (Above.self env).congr fun y hy => (agree y hy).trans (fixes y hy)
  refine ⟨_, realizes.generates.sound ready hψ unifies above, fun u hu => ?_⟩
  obtain ⟨g', m', η', realizes'⟩ := hu.realizable env n .var ready Assignment.mono_var (.self env)
  obtain rfl := realizes.generates.unique realizes'.generates
  have fixes' := realizes'.agree_free ready
  have general := settled.general
  rw [← realizes'.type, ← general.assign_value realizes'.unifies bounded.type.1]
  refine instances _ (closure_generalize (bounded.type.1.assign fun x _ => hψ x) env) η'
    realizes'.mono fun y hy => ?_
  -- On what is left of the environment all solutions agree, since they fix its names.
  have solvedMono : (g'.type.assign solution.subst.value).Mono :=
    bounded.type.1.assign fun x _ => general.solved.value_mono x
  obtain ⟨x, hx, occurs⟩ :=
    (settled.free y).1 ((Env.mem_occurrences_generalize solvedMono refined y).1 hy).2
  refine Ty.eq_of_assign_eq ?_ occurs
  rw [(general.unifies_iff η').1 realizes'.unifies x, (general.unifies_iff η).1 realizes.unifies x,
    fixes x hx, fixes' x hx]

end

def Env.separation (G : Env) (t : Ty) : Assignment := fun x =>
  if x ∈ t.quantified then
    .var (lengthen (G.flatMap fun binding => binding.2.core.occurrences) x)
  else .var x

def Env.separate (G : Env) (t : Ty) : Ty :=
  G.generalize (t.core.assign (G.separation t))

def Env.separated (G : Env) : Env :=
  G.map fun binding => (binding.1, G.separate binding.2)

namespace Env

variable {G : Env} {t : Ty}

theorem separation_mono (G : Env) (t : Ty) : (G.separation t).Mono := by
  intro x
  unfold separation
  split <;> trivial

theorem separation_of_notMem {x : String} (h : x ∉ t.quantified) :
    G.separation t x = .var x :=
  if_neg h

theorem get?_separated (x : Text) : G.separated.get? x = (G.get? x).map G.separate :=
  Subst.lookup_map_snd G.separate G x

theorem core_separate (scheme : t.Scheme) :
    (G.separate t).core = t.core.assign (G.separation t) :=
  core_generalize (Ty.Mono.assign scheme fun x _ => separation_mono G t x) G

theorem lengthen_notMem_free (G : Env) (x : String) :
    lengthen (G.flatMap fun binding => binding.2.core.occurrences) x ∉ G.free := by
  intro free
  obtain ⟨binding, hb, occurs⟩ := mem_free.1 free
  exact lengthen_notMem _ x (List.mem_flatMap.2 ⟨binding, hb, (Ty.mem_occurrences.1 occurs).1⟩)

theorem mem_occurrences_separate (scheme : t.Scheme) (inside : t.occurrences ⊆ G.free)
    {y : String} : y ∈ (G.separate t).occurrences ↔ y ∈ t.occurrences := by
  have mono : (t.core.assign (G.separation t)).Mono :=
    Ty.Mono.assign scheme fun x _ => separation_mono G t x
  rw [separate, mem_occurrences_generalize mono, Ty.mem_occurrences_assign scheme]
  constructor
  · rintro ⟨⟨x, hx, hy⟩, free⟩
    by_cases quantified : x ∈ t.quantified
    · simp only [separation, if_pos quantified, Ty.occurrences, List.mem_singleton] at hy
      exact absurd (hy ▸ free) (lengthen_notMem_free G x)
    · rw [separation_of_notMem quantified, Ty.occurrences, List.mem_singleton] at hy
      exact hy ▸ Ty.mem_occurrences.2 ⟨hx, quantified⟩
  · intro hy
    obtain ⟨core, quantified⟩ := Ty.mem_occurrences.1 hy
    refine ⟨⟨y, core, ?_⟩, inside hy⟩
    rw [separation_of_notMem quantified, Ty.occurrences]
    exact List.mem_singleton_self y

theorem occurrences_subset_free {binding : Text × Ty} (hb : binding ∈ G) :
    binding.2.occurrences ⊆ G.free :=
  fun _ hx => mem_free.2 ⟨binding, hb, hx⟩

theorem mem_free_separated (schemes : G.Schemes) {y : String} :
    y ∈ G.separated.free ↔ y ∈ G.free := by
  simp only [mem_free, separated, List.mem_map]
  constructor
  · rintro ⟨_, ⟨binding, hb, rfl⟩, hy⟩
    exact ⟨binding, hb,
      (mem_occurrences_separate (schemes binding hb) (occurrences_subset_free hb)).1 hy⟩
  · rintro ⟨binding, hb, hy⟩
    exact ⟨_, ⟨binding, hb, rfl⟩,
      (mem_occurrences_separate (schemes binding hb) (occurrences_subset_free hb)).2 hy⟩

theorem exists_ready_separated (schemes : G.Schemes) : ∃ n, G.separated.Ready n := by
  obtain ⟨n, ahead⟩ := Supply.exists_not_ahead (G.separated.flatMap fun binding =>
    binding.2.core.occurrences ++ binding.2.quantified)
  refine ⟨n, ⟨fun binding hb => ?_, fun binding hb x hx => ?_⟩, fun binding hb q hq => ?_⟩
  · obtain ⟨old, ho, rfl⟩ := List.mem_map.1 hb
    exact scheme_generalize ((schemes old ho).assign fun x _ => separation_mono G _ x) G
  · exact ahead x (List.mem_flatMap.2 ⟨binding, hb, by simpa using hx⟩)
  · obtain ⟨old, ho, rfl⟩ := List.mem_map.1 hb
    rw [mem_free_separated schemes]
    exact ((quantified_generalize
      ((schemes old ho).assign fun x _ => separation_mono G _ x) G q).1 hq).2

theorem instance_separate {x : Text} (found : G.get? x = some t) (scheme : t.Scheme)
    {ρ : Assignment} (hρ : ρ.Mono) (fixed : ∀ y ∈ t.occurrences, ρ y = .var y) :
    Instance (G.separate t) (t.core.assign ρ) := by
  let names := G.flatMap fun binding => binding.2.core.occurrences
  let q := t.core.occurrences.filter (· ∈ t.quantified)
  have hq : ∀ y, y ∈ q ↔ y ∈ t.core.occurrences ∧ y ∈ t.quantified := by simp [q]
  have same : t.core.assign (G.separation t) =
      t.core.assign fun y => if y ∈ q then .var (lengthen names y) else .var y := by
    refine Ty.assign_congr fun y hy => ?_
    simp only [separation, hq, hy, true_and]
    rfl
  have closure := closure_generalize
    (Ty.Mono.assign scheme fun y _ => separation_mono G t y) G
  rw [same] at closure
  rw [separate, same]
  refine instance_closure_renamed scheme (lengthen_injective names) (lengthen_notMem_free G)
    (fun y hy z hz => ?_) (fun y hy => ((hq y).1 hy).1) closure hρ fun y hy outside => ?_
  · simp only [Ty.occurrences, List.mem_singleton] at hz
    refine lengthen_notMem names z (hz ▸ List.mem_flatMap.2 ⟨(x, t), mem_of_get? found, hy⟩)
  · exact fixed y (Ty.mem_occurrences.2 ⟨hy, fun quantified => outside ((hq y).2 ⟨hy, quantified⟩)⟩)

end Env

theorem covers_separated {G : Env} (schemes : G.Schemes) (e : Program) :
    Covers e .var G G.separated ∧ Covers e .var G.separated G := by
  constructor
  · intro x _ t found
    refine ⟨G.separate t, by rw [Env.get?_separated, found, Option.map_some], fun ρ hρ fixed => ?_⟩
    exact Env.instance_separate found (schemes.get? found) hρ fixed
  · intro x _ separate named
    rw [Env.get?_separated, Option.map_eq_some_iff] at named
    obtain ⟨t, found, rfl⟩ := named
    have scheme := schemes.get? found
    refine ⟨t, found, fun ρ hρ fixed => ?_⟩
    rw [Env.core_separate scheme, Ty.assign_assign scheme]
    refine instance_assign
      (fun y => (Env.separation_mono G t y).assign fun z _ => hρ z) fun y hy => ?_
    have inside := Env.occurrences_subset_free (Env.mem_of_get? found)
    rw [Env.separation_of_notMem (Ty.mem_occurrences.1 hy).2, Ty.assign,
      fixed y ((Env.mem_occurrences_separate scheme inside).2 hy)]

theorem Closure.congr {G D : Env} {t scheme : Ty} (closure : Closure G t scheme)
    (same : ∀ y, y ∈ G.free ↔ y ∈ D.free) : Closure D t scheme := by
  refine ⟨closure.1, fun x => ?_⟩
  rw [closure.mem_quantified, same, Env.mem_free]
  simp

theorem HasType.instance {G : Env} {e : Program} {t scheme u : Ty} (h : HasType G e t)
    (schemes : G.Schemes) (closure : Closure G t scheme) (inst : Instance scheme u) :
    HasType G e u := by
  obtain ⟨ρ, hρ, fixed, rfl⟩ := inst
  rw [closure.1]
  refine h.covered schemes hρ ((Covers.of_get?_eq fun _ _ => rfl).congr fun y hy => ?_)
  exact fixed y fun quantified => ((closure.mem_quantified y).1 quantified).2 hy

theorem HasType.exists_scheme {G : Env} {e : Program} {t₀ : Ty} (h : HasType G e t₀)
    (schemes : G.Schemes) : ∃ t scheme, HasType G e t ∧ Closure G t scheme ∧
      ∀ u, Instance scheme u ↔ HasType G e u := by
  obtain ⟨n, ready⟩ := Env.exists_ready_separated schemes
  obtain ⟨into, back⟩ := covers_separated schemes e
  have moved : ∀ u, HasType G e u ↔ HasType G.separated e u := by
    intro u
    constructor
    · intro hu
      simpa [Ty.assign_var] using hu.covered schemes Assignment.mono_var into
    · intro hu
      simpa [Ty.assign_var] using hu.covered ready.scheme Assignment.mono_var back
  obtain ⟨t, typed, instances⟩ := ready.exists_scheme ((moved t₀).1 h)
  have typedHere := (moved t).2 typed
  have closure := (closure_generalize (typedHere.mono schemes) G.separated).congr
    fun _ => Env.mem_free_separated schemes
  exact ⟨t, _, typedHere, closure, fun u => ⟨typedHere.instance schemes closure,
    fun hu => instances u ((moved u).1 hu)⟩⟩

end HindleyMilner

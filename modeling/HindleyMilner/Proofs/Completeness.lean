import HindleyMilner.Proofs.Soundness

/-!
Every typing is a solution of the generated equations. Along a typing derivation, generation
succeeds, and the types of the derivation solve its equations: the solution is extended at the
names that the supply hands out and stays as it is elsewhere. At a `let` the equations of the value
have a solution, so they are solved, and since the solution found is most general, the scheme has
all instances that the derivation uses.
-/

namespace HindleyMilner

/-- Undoes the renaming of an instance: types for the quantified names become types for the names
handed out for them. -/
theorem exists_unfreshen (n : Nat) (q : List String) {ρ θ : Assignment} (hρ : ρ.Mono)
    (hθ : θ.Mono) :
    ∃ η : Assignment, η.Mono ∧ (∀ y, ¬ Supply.Within n (n + q.length) y → η y = θ y) ∧
      ∀ x ∈ q, (Ty.freshen n q x).assign η = ρ x := by
  obtain ⟨number, left⟩ := Supply.name_injective.hasLeftInverse
  refine ⟨fun y => if n ≤ number y ∧ number y < n + q.length ∧ Supply.name (number y) = y
    then ρ (q.getD (number y - n) "") else θ y, ?_, fun y outside => ?_, fun x hx => ?_⟩
  · exact .ite (fun y => hρ (q.getD (number y - n) "")) hθ _
  · exact if_neg fun inside => outside ⟨number y, inside.1, inside.2.1, inside.2.2.symm⟩
  · have index := List.idxOf_lt_length_of_mem hx
    rw [Ty.freshen, if_pos hx, Supply.placeholder, Ty.assign, left]
    simp [index]

/-- The environment gives all instances of the context under `θ`, and `θ` puts no names for the
free ones that are not free in the context. -/
structure Below (θ : Assignment) (env G : Env) : Prop where
  instances : ∀ x wider, G.get? x = some wider → ∃ scheme, env.get? x = some scheme ∧
    ∀ t, Instance wider t → ∃ ρ : Assignment, ρ.Mono ∧ (∀ y ∈ scheme.occurrences, ρ y = θ y) ∧
      t = scheme.core.assign ρ
  names : ∀ y ∈ env.free, (θ y).occurrences ⊆ G.free

namespace Below

variable {θ η : Assignment} {env G : Env}

theorem nil (θ : Assignment) : Below θ [] [] := by
  refine ⟨fun x wider found => ?_, fun y hy => ?_⟩
  · cases found
  · obtain ⟨_, mem, _⟩ := Env.mem_free.1 hy
    cases mem

theorem congr (h : Below θ env G) (agree : ∀ y ∈ env.free, η y = θ y) : Below η env G := by
  constructor
  · intro x wider named
    obtain ⟨scheme, found, instances⟩ := h.instances x wider named
    refine ⟨scheme, found, fun t ht => ?_⟩
    obtain ⟨ρ, mono, same, equal⟩ := instances t ht
    refine ⟨ρ, mono, fun y hy => ?_, equal⟩
    rw [same y hy, agree y (Env.mem_free.2 ⟨(x, scheme), Env.mem_of_get? found, hy⟩)]
  · intro y hy
    rw [agree y hy]
    exact h.names y hy

theorem extend (h : Below θ env G) (name : Text) {scheme wider : Ty}
    (instances : ∀ t, Instance wider t → ∃ ρ : Assignment, ρ.Mono ∧
      (∀ y ∈ scheme.occurrences, ρ y = θ y) ∧ t = scheme.core.assign ρ)
    (names : ∀ y ∈ scheme.occurrences, (θ y).occurrences ⊆ (G.extend name wider).free) :
    Below θ (env.extend name scheme) (G.extend name wider) := by
  constructor
  · intro x found hx
    by_cases same : x = name
    · subst same
      rw [Env.get?_extend_self] at hx
      cases hx
      exact ⟨scheme, Env.get?_extend_self env x scheme, instances⟩
    · rw [Env.get?_extend_ne same] at hx ⊢
      exact h.instances x found hx
  · intro y hy z hz
    cases Env.mem_free_extend.1 hy with
    | inl occurs => exact names y occurs hz
    | inr free => exact Env.mem_free_extend.2 (.inr (h.names y free hz))

theorem extend_mono (h : Below θ env G) (hθ : θ.Mono) (name : Text) {t : Ty} (mono : t.Mono) :
    Below θ (env.extend name t) (G.extend name (t.assign θ)) := by
  refine h.extend name (fun u hu => ⟨θ, hθ, fun _ _ => rfl, ?_⟩) fun y hy z hz => ?_
  · rw [mono.core_eq]
    exact hu.eq (mono.assign fun x _ => hθ x)
  · have occurs : z ∈ (t.assign θ).occurrences :=
      (Ty.mem_occurrences_assign mono).2 ⟨y, hy, hz⟩
    exact Env.mem_free_extend.2 (.inl occurs)

theorem settle (h : Below θ env G) (hθ : θ.Mono) {v : Generated} {s : Subst} {refined : Env}
    (settled : Settled env v s refined) (mono : v.type.Mono) (unifies : Unifies θ v.constraints)
    {wider : Ty} (closure : Closure G (v.type.assign θ) wider) (name : Text) :
    Below θ (env.extend name (refined.generalize (v.type.assign s.value)))
      (G.extend name wider) := by
  have solvedMono : (v.type.assign s.value).Mono :=
    mono.assign fun x _ => settled.general.solved.value_mono x
  have inside : ∀ y ∈ refined.free, (θ y).occurrences ⊆ G.free := by
    intro y hy z hz
    obtain ⟨x, hx, occurs⟩ := (settled.free y).1 hy
    refine h.names x hx ?_
    rw [← (settled.general.unifies_iff θ).1 unifies x]
    exact (Ty.mem_occurrences_assign (settled.general.solved.value_mono x)).2 ⟨y, occurs, hz⟩
  refine h.extend name (fun t ht => ?_) fun y hy z hz => ?_
  · obtain ⟨ρ, hρ, fixed, rfl⟩ := ht
    refine ⟨fun y => (θ y).assign ρ, fun y => (hθ y).assign fun z _ => hρ z, fun y hy => ?_, ?_⟩
    · have stillFree := ((Env.mem_occurrences_generalize solvedMono refined y).1 hy).2
      have stays : ∀ z ∈ (θ y).occurrences, ρ z = .var z := fun z hz =>
        fixed z fun quantified =>
          ((closure.mem_quantified z).1 quantified).2 (inside y stillFree hz)
      exact (Ty.assign_congr stays).trans (Ty.assign_var (θ y))
    · rw [closure.1, Env.core_generalize solvedMono, ← settled.general.assign_value unifies mono,
        Ty.assign_assign solvedMono]
  · have stillFree := ((Env.mem_occurrences_generalize solvedMono refined y).1 hy).2
    exact Env.mem_free_extend.2 (.inr (inside y stillFree hz))

end Below

/-- Generation succeeds, and `η` solves its equations so that the expression has type `t`. At
names that are not handed out on the way, `η` is `θ`. -/
structure Realizes (env : Env) (n : Nat) (θ : Assignment) (e : Program) (t : Ty) (g : Generated)
    (m : Nat) (η : Assignment) : Prop where
  generates : Generates env n e g m
  mono : η.Mono
  agree : ∀ x, ¬ Supply.Within n m x → η x = θ x
  unifies : Unifies η g.constraints
  type : g.type.assign η = t

namespace Realizes

variable {env G : Env} {n k m : Nat} {θ η ψ : Assignment} {e : Program} {t : Ty} {g : Generated}

theorem agree_free (h : Realizes env n θ e t g m η) (ready : env.Ready n) :
    ∀ y ∈ env.free, η y = θ y :=
  fun y hy => h.agree y fun within => ready.toPlain.free_known hy within.ahead

theorem kept (h : Realizes env n θ e t g m η) (ready : env.Ready n)
    (same : ∀ x, Drawn env e n m x → ψ x = η x) :
    Unifies ψ g.constraints ∧ g.type.assign ψ = t := by
  have congr := (h.generates.bounded ready.toPlain).congr same
  exact ⟨congr.1.2 h.unifies, congr.2.trans h.type⟩

theorem kept_later (h : Realizes env n θ e t g k η) (ready : env.Ready n)
    (agree : ∀ x, ¬ Supply.Within k m x → ψ x = η x) :
    Unifies ψ g.constraints ∧ g.type.assign ψ = t := by
  have bounded := h.generates.bounded ready.toPlain
  have congr := bounded.undisturbed ready.toPlain bounded.le (.inl (Nat.le_refl k)) agree
  exact ⟨congr.1.2 h.unifies, congr.2.trans h.type⟩

theorem type_mono (h : Realizes env n θ e t g m η) (ready : env.Ready n) : t.Mono := by
  rw [← h.type]
  exact (h.generates.bounded ready.toPlain).type.1.assign fun x _ => h.mono x

end Realizes

theorem agree_trans {n k m : Nat} {θ η ψ : Assignment} (hn : n ≤ k) (hm : k ≤ m)
    (first : ∀ x, ¬ Supply.Within n k x → η x = θ x)
    (second : ∀ x, ¬ Supply.Within k m x → ψ x = η x) (x : String)
    (hx : ¬ Supply.Within n m x) : ψ x = θ x := by
  rw [second x fun within => hx (within.widen hn (Nat.le_refl m)),
    first x fun within => hx (within.widen (Nat.le_refl n) hm)]

theorem agree_update {n m : Nat} {i : Nat} (hn : n ≤ i) (hm : i < m) (θ : Assignment) (t : Ty)
    (x : String) (hx : ¬ Supply.Within n m x) :
    Function.update θ (Supply.name i) t x = θ x := by
  refine Function.update_of_ne (fun equal => hx ?_) t θ
  rw [equal, Supply.name_within]
  exact ⟨hn, hm⟩

theorem Assignment.Mono.update {θ : Assignment} (hθ : θ.Mono) {t : Ty} (mono : t.Mono)
    (x : String) : Assignment.Mono (Function.update θ x t) := by
  intro y
  by_cases hy : y = x
  · rw [hy, Function.update_self]
    exact mono
  · rw [Function.update_of_ne hy]
    exact hθ y

def Realizable (G : Env) (e : Program) (t : Ty) : Prop :=
  ∀ (env : Env) (n : Nat) (θ : Assignment), env.Ready n → θ.Mono → Below θ env G →
    ∃ g m η, Realizes env n θ e t g m η

namespace Realizable

variable {G : Env} {place : Option Location} {name : Text}

theorem ident {scheme t : Ty} (named : G.get? name = some scheme) (inst : Instance scheme t) :
    Realizable G (.ident place name) t := by
  intro env n θ ready hθ below
  obtain ⟨scheme, found, instances⟩ := below.instances name scheme named
  obtain ⟨ρ, hρ, same, rfl⟩ := instances t inst
  obtain ⟨η, hη, agree, renamed⟩ := exists_unfreshen n scheme.quantified hρ hθ
  have mono : scheme.core.Mono := ready.scheme _ (Env.mem_of_get? found)
  refine ⟨_, _, η, .ident found (ready.toPlain.instanceAt found), hη, agree, by simp, ?_⟩
  change (scheme.core.assign (Ty.freshen n scheme.quantified)).assign η = scheme.core.assign ρ
  rw [Ty.assign_assign mono]
  refine Ty.assign_congr fun x hx => ?_
  by_cases quantified : x ∈ scheme.quantified
  · exact renamed x quantified
  · have known := ready.known _ (Env.mem_of_get? found) x (.inl hx)
    rw [Ty.freshen_of_notMem quantified, Ty.assign, agree x fun within => known within.ahead,
      same x (Ty.mem_occurrences.2 ⟨hx, quantified⟩)]

theorem func {body : Program} {d c : Ty} (mono : d.Mono)
    (h : Realizable (G.extend name d) body c) :
    Realizable G (.func place name body) (.arrow d c) := by
  intro env n θ ready hθ below
  have inner := ready.parameter name (show n < n + 2 by omega)
  have domain : (Supply.placeholder n).Mono := trivial
  have hη₀ := hθ.update mono (Supply.name n)
  have belowBody := (below.congr fun y hy => agree_update (Nat.le_refl n) (Nat.lt_succ_self n) θ d
    y fun within => ready.toPlain.free_known hy within.ahead).extend_mono hη₀ name domain
  rw [Supply.placeholder, Ty.assign, Function.update_self] at belowBody
  obtain ⟨g, m, η, realizes⟩ := h _ _ _ inner hη₀ belowBody
  -- Only now is `c` known to be free of quantifiers, so the result is assigned after the body.
  have le := (realizes.generates.bounded inner.toPlain).le
  have skipped : ∀ x, Drawn (env.extend name (Supply.placeholder n)) body (n + 2) m x →
      Function.update η (Supply.name (n + 1)) c x = η x := by
    intro x drawn
    refine Function.update_of_ne (fun equal => ?_) c η
    rw [equal] at drawn
    cases drawn with
    | inl shown =>
        have plain := (ready.parameter name (Nat.lt_succ_self n)).toPlain
        exact plain.free_known shown.mem_free (Supply.name_ahead.2 (Nat.le_refl _))
    | inr within =>
        rw [Supply.name_within] at within
        omega
  have kept := realizes.kept inner skipped
  have agree : ∀ x, ¬ Supply.Within n m x →
      Function.update η (Supply.name (n + 1)) c x = θ x := by
    intro x hx
    rw [agree_update (by omega) (by omega) η c x hx,
      realizes.agree x fun within => hx (within.widen (by omega) (Nat.le_refl m)),
      agree_update (Nat.le_refl n) (by omega) θ d x hx]
  have first : η (Supply.name n) = d := by
    rw [realizes.agree _ (by rw [Supply.name_within]; omega), Function.update_self]
  refine ⟨_, m, _, .func realizes.generates, realizes.mono.update (realizes.type_mono inner) _,
    agree, ?_, ?_⟩
  · simp only [unifies_append, unifies_cons, unifies_nil, and_true]
    refine ⟨kept.1, ?_⟩
    rw [kept.2, Supply.placeholder, Ty.assign, Function.update_self]
  · have different : Supply.name n ≠ Supply.name (n + 1) := fun equal => by
      have same := Supply.name_injective equal
      omega
    change Ty.arrow (Function.update η _ c _) (Function.update η _ c _) = _
    rw [Function.update_of_ne different, Function.update_self, first]

theorem not {operand : Program} (h : Realizable G operand .bool) :
    Realizable G (.not place operand) .bool := by
  intro env n θ ready hθ below
  obtain ⟨g, m, η, realizes⟩ := h env n θ ready hθ below
  refine ⟨_, m, η, .not realizes.generates, realizes.mono, realizes.agree, ?_, rfl⟩
  simp only [unifies_append, unifies_cons, unifies_nil, and_true]
  exact ⟨realizes.unifies, realizes.type⟩

theorem binary {op : Operator} {left right : Program} {t u w : Ty} (hl : Realizable G left t)
    (hr : Realizable G right u)
    (own : ∀ (η : Assignment) (l r : Ty), l.assign η = t → r.assign η = u →
      Unifies η (op.typing place l r).2 ∧ (op.typing place l r).1.assign η = w) :
    Realizable G (.binary place op left right) w := by
  intro env n θ ready hθ below
  obtain ⟨l, k, η, first⟩ := hl env n θ ready hθ below
  have le := (first.generates.bounded ready.toPlain).le
  have readyRight := ready.later le
  obtain ⟨r, m, ψ, second⟩ :=
    hr env k η readyRight first.mono (below.congr (first.agree_free ready))
  have kept := first.kept_later ready second.agree
  have typed := own ψ l.type r.type kept.2 second.type
  refine ⟨_, m, ψ, .binary first.generates second.generates, second.mono,
    agree_trans le (second.generates.bounded readyRight.toPlain).le first.agree second.agree, ?_,
    typed.2⟩
  simp only [unifies_append]
  exact ⟨⟨kept.1, second.unifies⟩, typed.1⟩

theorem cond {test yes no : Program} {t : Ty} (ht : Realizable G test .bool)
    (hy : Realizable G yes t) (hn : Realizable G no t) :
    Realizable G (.cond place test yes no) t := by
  intro env n θ ready hθ below
  obtain ⟨c, j, η, first⟩ := ht env n θ ready hθ below
  have leTest := (first.generates.bounded ready.toPlain).le
  have readyYes := ready.later leTest
  have belowYes := below.congr (first.agree_free ready)
  obtain ⟨y, k, ψ, second⟩ := hy env j η readyYes first.mono belowYes
  have leYes := (second.generates.bounded readyYes.toPlain).le
  have readyNo := readyYes.later leYes
  obtain ⟨z, m, χ, third⟩ :=
    hn env k ψ readyNo second.mono (belowYes.congr (second.agree_free readyYes))
  have leNo := (third.generates.bounded readyNo.toPlain).le
  have agreeLate := agree_trans leYes leNo second.agree third.agree
  have keptTest := first.kept_later ready agreeLate
  have keptYes := second.kept_later readyYes third.agree
  refine ⟨_, m, χ, .cond first.generates second.generates third.generates, third.mono,
    agree_trans leTest (Nat.le_trans leYes leNo) first.agree agreeLate, ?_, keptYes.2⟩
  simp only [unifies_append, unifies_cons, unifies_nil, and_true]
  exact ⟨⟨⟨keptTest.1, keptYes.1⟩, third.unifies⟩, keptTest.2, keptYes.2.trans third.type.symm⟩

theorem call {callee argument : Program} {d c : Ty} (hf : Realizable G callee (.arrow d c))
    (ha : Realizable G argument d) : Realizable G (.call place callee argument) c := by
  intro env n θ ready hθ below
  obtain ⟨f, k, η, first⟩ := hf env n θ ready hθ below
  have leCallee := (first.generates.bounded ready.toPlain).le
  have readyArgument := ready.later leCallee
  obtain ⟨a, m, ψ, second⟩ :=
    ha env k η readyArgument first.mono (below.congr (first.agree_free ready))
  have leArgument := (second.generates.bounded readyArgument.toPlain).le
  have result : c.Mono := (first.type_mono ready).2
  have agreeResult := agree_update (Nat.le_refl m) (Nat.lt_succ_self m) ψ c
  have agreeLate := agree_trans leArgument (Nat.le_succ m) second.agree agreeResult
  have keptCallee := first.kept_later ready agreeLate
  have keptArgument := second.kept_later readyArgument agreeResult
  refine ⟨_, m + 1, Function.update ψ (Supply.name m) c, .call first.generates second.generates,
    second.mono.update result _,
    agree_trans leCallee (Nat.le_succ_of_le leArgument) first.agree agreeLate, ?_, ?_⟩
  · simp only [unifies_append, unifies_cons, unifies_nil, and_true]
    refine ⟨⟨keptCallee.1, keptArgument.1⟩, ?_⟩
    rw [keptCallee.2, Ty.assign, keptArgument.2, Supply.placeholder, Ty.assign,
      Function.update_self]
  · exact Function.update_self ..

theorem letPlain {value body : Program} {t scheme u : Ty} (hv : Realizable G value t)
    (closure : Closure G t scheme) (hb : Realizable (G.extend name scheme) body u) :
    Realizable G (.letIn place name false value body) u := by
  intro env n θ ready hθ below
  obtain ⟨v, k, η, first⟩ := hv env n θ ready hθ below
  have bounded := first.generates.bounded ready.toPlain
  obtain ⟨solution, solves⟩ := Unify.solve_of_unifies bounded.mono first.unifies
  obtain ⟨refined, settled, readyBody⟩ := first.generates.exists_settled ready solves name
  rw [← first.type] at closure
  have belowBody := (below.congr (first.agree_free ready)).settle first.mono settled
    bounded.type.1 first.unifies closure name
  obtain ⟨b, m, ψ, second⟩ := hb _ k η readyBody first.mono belowBody
  have kept := first.kept_later ready second.agree
  refine ⟨_, m, ψ, .letPlain first.generates solves settled.refines settled.applies
    second.generates, second.mono, agree_trans bounded.le
    (second.generates.bounded readyBody.toPlain).le first.agree second.agree, ?_, second.type⟩
  simp only [unifies_append]
  exact ⟨kept.1, second.unifies⟩

theorem letRec {value body : Program} {self t u : Ty} (mono : self.Mono)
    (hv : Realizable (G.extend name self) value t) (hb : Realizable (G.extend name t) body u) :
    Realizable G (.letIn place name true value body) u := by
  intro env n θ ready hθ below
  have inner := ready.parameter name (Nat.lt_succ_self n)
  have agreeSelf := agree_update (Nat.le_refl n) (Nat.lt_succ_self n) θ self
  have belowSelf := below.congr fun y hy =>
    agreeSelf y fun within => ready.toPlain.free_known hy within.ahead
  have belowValue := belowSelf.extend_mono (hθ.update mono (Supply.name n)) name
    (show (Supply.placeholder n).Mono from trivial)
  rw [Supply.placeholder, Ty.assign, Function.update_self] at belowValue
  obtain ⟨v, k, η, first⟩ := hv _ _ _ inner (hθ.update mono _) belowValue
  have bounded := first.generates.bounded inner.toPlain
  obtain ⟨solution, solves⟩ := Unify.solve_of_unifies bounded.mono first.unifies
  obtain ⟨refined, settled, readyBody⟩ := first.generates.exists_settled_recursive ready solves
  have solved : (v.type.assign solution.subst.value).Mono :=
    bounded.type.1.assign fun x _ => settled.general.solved.value_mono x
  have agreeValue := agree_trans (Nat.le_succ n) bounded.le agreeSelf first.agree
  have belowBody := (below.congr fun y hy => agreeValue y fun within =>
    ready.toPlain.free_known hy within.ahead).extend_mono first.mono name solved
  rw [settled.general.assign_value first.unifies bounded.type.1, first.type] at belowBody
  obtain ⟨b, m, ψ, second⟩ := hb _ k η readyBody first.mono belowBody
  have kept := first.kept_later inner second.agree
  refine ⟨_, m, ψ, .letRec first.generates solves settled.refines settled.applies
    second.generates, second.mono, agree_trans (Nat.le_of_succ_le bounded.le)
    (second.generates.bounded readyBody.toPlain).le agreeValue second.agree, ?_, second.type⟩
  simp only [unifies_append]
  exact ⟨kept.1, second.unifies⟩

end Realizable

theorem HasType.realizable {G : Env} {e : Program} {t : Ty} (h : HasType G e t) :
    Realizable G e t := by
  induction h with
  | int => exact fun env n θ _ hθ _ => ⟨_, n, θ, .int, hθ, fun _ _ => rfl, by simp, rfl⟩
  | bool => exact fun env n θ _ hθ _ => ⟨_, n, θ, .bool, hθ, fun _ _ => rfl, by simp, rfl⟩
  | str => exact fun env n θ _ hθ _ => ⟨_, n, θ, .str, hθ, fun _ _ => rfl, by simp, rfl⟩
  | ident named inst => exact .ident named inst
  | func mono _ ih => exact .func mono ih
  | not _ ih => exact .not ih
  | arithmetic category _ _ ihl ihr | concatenation category _ _ ihl ihr
  | comparison category _ _ ihl ihr | logical category _ _ ihl ihr =>
      refine .binary ihl ihr fun η l r hl hr => ?_
      simp [Operator.typing, category, Operator.Category.operand?, hl, hr, Ty.assign, Ty.int,
        Ty.string, Ty.bool]
  | cond _ _ _ iht ihy ihn => exact .cond iht ihy ihn
  | call _ _ ihf iha => exact .call ihf iha
  | letPlain _ closure _ ihv ihb => exact .letPlain ihv closure ihb
  | letRec mono _ _ ihv ihb => exact .letRec mono ihv ihb

end HindleyMilner

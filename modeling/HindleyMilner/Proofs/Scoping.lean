import HindleyMilner.Proofs.Annotation

/-!
Scoping. Generation finds the uses of identifiers from left to right and stops at the first one that
the environment does not bind, unless a `let` before it cannot be solved. So a run that reports an
unbound identifier names the first loose use of the program, with its place, and a run that
succeeds has met no loose use.
-/

namespace HindleyMilner

section

variable {ν : Type}

def Env.unbound (env : Env) (e : Expr ν) : List (Text × ν) :=
  e.loose.filter fun use => (env.get? use.1).isNone

namespace Env

variable {env : Env} {note : ν} {name : Text} {t : Ty}

theorem filter_unbound_extend (uses : List (Text × ν)) :
    (uses.filter (·.1 ≠ name)).filter (fun use => (env.get? use.1).isNone) =
      uses.filter fun use => ((env.extend name t).get? use.1).isNone := by
  rw [List.filter_filter]
  refine List.filter_congr fun use _ => ?_
  by_cases same : use.1 = name
  · simp [same, get?_extend_self]
  · simp [same, get?_extend_ne same]

theorem unbound_func (body : Expr ν) :
    env.unbound (.func note name body) = (env.extend name t).unbound body :=
  filter_unbound_extend body.loose

theorem unbound_binary (op : Operator) (left right : Expr ν) :
    env.unbound (.binary note op left right) = env.unbound left ++ env.unbound right :=
  List.filter_append ..

theorem unbound_cond (test yes no : Expr ν) :
    env.unbound (.cond note test yes no) =
      env.unbound test ++ (env.unbound yes ++ env.unbound no) := by
  simp only [unbound, Expr.loose, List.filter_append, List.append_assoc]

theorem unbound_call (callee argument : Expr ν) :
    env.unbound (.call note callee argument) = env.unbound callee ++ env.unbound argument :=
  List.filter_append ..

theorem unbound_letIn {recursive : Bool} {self : Ty} (value body : Expr ν) :
    env.unbound (.letIn note name recursive value body) =
      (if recursive then env.extend name self else env).unbound value ++
        (env.extend name t).unbound body := by
  simp only [unbound, Expr.loose, List.filter_append, filter_unbound_extend (t := t)]
  cases recursive with
  | false => rfl
  | true => simp only [↓reduceIte, filter_unbound_extend (t := self)]

theorem unbound_nil (e : Expr ν) : unbound [] e = e.loose :=
  List.filter_eq_self.2 fun _ _ => rfl

end Env

end

theorem Generates.unbound_eq_nil {env : Env} {n m : Nat} {e : Program} {g : Generated}
    (h : Generates env n e g m) (ready : env.Ready n) : env.unbound e = [] := by
  refine List.filter_eq_nil_iff.2 fun use hu => ?_
  rw [← h.erase, Annotated.erase, Expr.loose_map] at hu
  obtain ⟨typed, ht, rfl⟩ := List.mem_map.1 hu
  obtain ⟨scheme, found, -⟩ := h.uses ready typed ht
  simp [found]

namespace Fault

/-- A fault of a program with these unbound uses: equations without a solution, or the first of the
uses. -/
def Reports (uses : List (Text × Option Location)) : Fault → Prop
  | .unbound name place => uses.head? = some (name, place)
  | .infinite .. | .mismatch .. => True
  | .notAType _ => False

variable {uses : List (Text × Option Location)} {fault : Fault}

theorem Unsolvable.reports (h : fault.Unsolvable) : fault.Reports uses := by
  cases fault with
  | infinite | mismatch => trivial
  | unbound | notAType => exact h.elim

theorem Reports.append (h : fault.Reports uses) (more : List (Text × Option Location)) :
    fault.Reports (uses ++ more) := by
  cases fault with
  | unbound name place =>
      change (uses ++ more).head? = some (name, place)
      rw [List.head?_append, show uses.head? = some (name, place) from h, Option.some_or]
  | infinite | mismatch => trivial
  | notAType => exact h

end Fault

section

variable {env scope : Env} {recursive : Bool} {name : Text} {trace trace' : Trace}

theorem letScope_ok : letScope env recursive name trace = .ok scope trace' ↔
    scope = (if recursive then env.extend name (Supply.placeholder trace.counter) else env) ∧
      trace' = if recursive then { trace with counter := trace.counter + 1 } else trace := by
  cases recursive with
  | false =>
      change EStateM.Result.ok env trace = _ ↔ _
      simp [eq_comm]
  | true =>
      change EStateM.Result.ok (env.extend name (Supply.placeholder trace.counter))
        { trace with counter := trace.counter + 1 } = _ ↔ _
      simp [eq_comm]

theorem ready_scope (ready : env.Ready trace.counter)
    (opens : letScope env recursive name trace = .ok scope trace') :
    scope.Ready trace'.counter := by
  obtain ⟨rfl, rfl⟩ := letScope_ok.1 opens
  cases recursive with
  | false => exact ready
  | true => exact ready.parameter name (Nat.lt_succ_self _)

theorem ready_let {v : Generated} {value : Program} {k : Nat} (ready : env.Ready trace.counter)
    (opens : letScope env recursive name trace = .ok scope trace')
    (generates : Generates scope trace'.counter value v k) {solution : Unify.Solution}
    (solves : Unify.solve v.constraints = .ok solution) :
    ∃ scheme, letScheme env recursive solution.subst v.type = .ok scheme ∧
      (env.extend name scheme).Ready k := by
  obtain ⟨rfl, rfl⟩ := letScope_ok.1 opens
  cases recursive with
  | false =>
      simp only [Bool.false_eq_true, ↓reduceIte] at generates
      obtain ⟨refined, settled, readyBody⟩ := generates.exists_settled ready solves name
      exact ⟨_, letScheme_eq_ok.2 ⟨_, _, settled.refines, settled.applies, rfl⟩, readyBody⟩
  | true =>
      simp only [↓reduceIte] at generates
      obtain ⟨refined, settled, readyBody⟩ := generates.exists_settled_recursive ready solves
      exact ⟨_, letScheme_eq_ok.2 ⟨_, _, settled.refines, settled.applies, rfl⟩, readyBody⟩

end

theorem generate_reports {env : Env} {e : Program} {trace trace' : Trace} {fault : Fault}
    (h : generate env e trace = .error fault trace') (ready : env.Ready trace.counter) :
    fault.Reports (env.unbound e) := by
  induction e generalizing env trace trace' with
  | int | bool | str => cases h
  | ident place name =>
      cases found : env.get? name with
      | none =>
          simp only [generate, found] at h
          cases h
          simp [Fault.Reports, Env.unbound, Expr.loose, found]
      | some scheme =>
          simp only [generate, found] at h
          have instantiates := Infer.run_instantiate_ok.2 ⟨ready.toPlain.instanceAt found, rfl⟩
          rw [Infer.run_bind_of_ok instantiates] at h
          cases h
  | func place parameter body ih =>
      rw [generate, Infer.run_fresh_bind, Infer.run_fresh_bind] at h
      rcases Infer.run_bind_error.1 h with h | ⟨_, _, _, h⟩
      · rw [Env.unbound_func]
        exact ih h (ready.parameter parameter (by dsimp only; omega))
      · cases h
  | not place operand ih =>
      rcases Infer.run_bind_error.1 h with h | ⟨_, _, _, h⟩
      · exact ih h ready
      · cases h
  | binary place op left right ihl ihr =>
      rw [Env.unbound_binary]
      rcases Infer.run_bind_error.1 h with h | ⟨_, _, generated, h⟩
      · exact (ihl h ready).append _
      have first := generates_of_ok generated
      rw [first.unbound_eq_nil ready]
      rcases Infer.run_bind_error.1 h with h | ⟨_, _, _, h⟩
      · exact ihr h (ready.after first)
      · cases h
  | cond place test yes no iht ihy ihn =>
      rw [Env.unbound_cond]
      rcases Infer.run_bind_error.1 h with h | ⟨_, _, generated, h⟩
      · exact (iht h ready).append _
      have first := generates_of_ok generated
      rw [first.unbound_eq_nil ready]
      rcases Infer.run_bind_error.1 h with h | ⟨_, _, generated, h⟩
      · exact (ihy h (ready.after first)).append _
      have second := generates_of_ok generated
      rw [second.unbound_eq_nil (ready.after first)]
      rcases Infer.run_bind_error.1 h with h | ⟨_, _, _, h⟩
      · exact ihn h ((ready.after first).after second)
      · cases h
  | call place callee argument ihc iha =>
      rw [Env.unbound_call]
      rcases Infer.run_bind_error.1 h with h | ⟨_, _, generated, h⟩
      · exact (ihc h ready).append _
      have first := generates_of_ok generated
      rw [first.unbound_eq_nil ready]
      rcases Infer.run_bind_error.1 h with h | ⟨_, _, _, h⟩
      · exact iha h (ready.after first)
      · cases h
  | letIn place name recursive value body ihv ihb =>
      have opens : letScope env recursive name trace = .ok _ _ := letScope_ok.2 ⟨rfl, rfl⟩
      rw [generate, Infer.run_bind_of_ok opens] at h
      rcases Infer.run_bind_error.1 h with h | ⟨v, _, generated, h⟩
      · -- The body is not reached, so any type will do for the name.
        rw [Env.unbound_letIn (t := Supply.placeholder 0)]
        exact (ihv h (ready_scope ready opens)).append _
      have first := generates_of_ok generated
      rcases Infer.run_solve_bind_error.1 h with ⟨fails, -⟩ | ⟨solution, solves, h⟩
      · have bounded := first.bounded (ready_scope ready opens).toPlain
        exact (Unify.fails_of_error bounded.mono fails).1.reports
      obtain ⟨scheme, schemed, readyBody⟩ := ready_let ready opens first solves
      rw [Infer.run_bind_of_ok (Infer.run_lift_ok.2 ⟨schemed, rfl⟩), Infer.run_note_bind] at h
      rcases Infer.run_bind_error.1 h with h | ⟨_, _, _, h⟩
      · rw [Env.unbound_letIn (t := scheme), first.unbound_eq_nil (ready_scope ready opens)]
        exact ihb h readyBody
      · cases h

namespace Program

theorem run_reports {annotate : Bool} {e : Program} {fault : Fault} {trace : Trace}
    (h : e.run annotate = .error fault trace) : fault.Reports e.loose := by
  change e.inferM annotate {} = _ at h
  rcases Infer.run_bind_error.1 h with h | ⟨g, _, generated, h⟩
  · rw [← Env.unbound_nil]
    exact generate_reports h (.nil 0)
  have bounded := (generates_of_ok generated).bounded (.nil 0)
  rw [Infer.run_note_bind] at h
  rcases Infer.run_solve_bind_error.1 h with ⟨fails, -⟩ | ⟨solution, solves, h⟩
  · exact (Unify.fails_of_error bounded.mono fails).1.reports
  have solved := (Unify.mostGeneral_of_ok bounded.mono solves).solved
  rw [solved.apply bounded.type.1,
    Annotated.resolve_of_mono solved fun t ht => (bounded.types t ht).1] at h
  cases annotate with
  | false => cases h
  | true => cases h

end Program

/-- A run without loose uses reports no unbound identifier. With loose uses it does not succeed, and
if it reports an unbound identifier, it is the first of them. -/
theorem scoping_is_exact (e : Program) (annotate : Bool) :
    (e.loose = [] → ∀ name place trace, e.run annotate ≠ .error (.unbound name place) trace) ∧
    (e.loose ≠ [] → ∀ result trace, e.run annotate ≠ .ok result trace) ∧
    ∀ name place trace, e.run annotate = .error (.unbound name place) trace →
      e.loose.head? = some (name, place) := by
  refine ⟨fun bound name place trace h => ?_, fun loose result trace h => loose ?_,
    fun name place trace h => Program.run_reports h⟩
  · have first : e.loose.head? = some (name, place) := Program.run_reports h
    rw [bound] at first
    cases first
  · obtain ⟨g, m, solution, generates, -⟩ := Program.run_ok h
    rw [← Env.unbound_nil, generates.unbound_eq_nil (.nil 0)]

-- A `let` that cannot be solved is reported before a loose use that stands after it.
example : Program.run false (.letIn none "a" false (.not none (.int none 1)) (.ident none "b")) =
    .error (.mismatch .int .bool none) {} := by
  have fails : Unify.solve [⟨.int, .bool, none⟩] = .error (.mismatch .int .bool none) := by cbv
  refine Infer.run_bind_error.2 (.inl (Infer.run_bind_error.2 (.inr ⟨_, _, rfl, ?_⟩)))
  refine Infer.run_bind_error.2 (.inr ⟨_, _, rfl, ?_⟩)
  exact Infer.run_solve_bind_error.2 (.inl ⟨fails, rfl⟩)

end HindleyMilner

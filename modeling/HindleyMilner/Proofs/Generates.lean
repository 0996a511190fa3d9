import HindleyMilner.Infer.Run
import HindleyMilner.Proofs.Scheme

/-!
Generation as a relation. A run of `generate` reads nothing of the notes it writes, so a successful
one is described by the counters before and after. `Generates` has one rule for each kind of
expression and two for `let`, and holds exactly of the successful runs. All that is said about
generated equations is by induction on it.
-/

namespace HindleyMilner

namespace Infer

variable {α β : Type} {trace trace' : Trace}

theorem run_bind_ok {m : Infer α} {f : α → Infer β} {b : β} :
    (m >>= f) trace = .ok b trace' ↔
      ∃ a middle, m trace = .ok a middle ∧ f a middle = .ok b trace' := by
  change EStateM.bind m f trace = _ ↔ _
  unfold EStateM.bind
  cases m trace with
  | ok a middle =>
      constructor
      · exact fun h => ⟨a, middle, rfl, h⟩
      · rintro ⟨_, _, ⟨⟩, h⟩
        exact h
  | error fault middle => simp

theorem run_bind_of_ok {m : Infer α} {f : α → Infer β} {a : α} (h : m trace = .ok a trace') :
    (m >>= f) trace = f a trace' := by
  change EStateM.bind m f trace = _
  rw [EStateM.bind, h]

theorem run_bind_error {m : Infer α} {f : α → Infer β} {fault : Fault} :
    (m >>= f) trace = .error fault trace' ↔
      m trace = .error fault trace' ∨
        ∃ a middle, m trace = .ok a middle ∧ f a middle = .error fault trace' := by
  change EStateM.bind m f trace = _ ↔ _
  unfold EStateM.bind
  cases m trace with
  | ok a middle =>
      constructor
      · exact fun h => .inr ⟨a, middle, rfl, h⟩
      · rintro (h | ⟨_, _, ⟨⟩, h⟩)
        · cases h
        · exact h
  | error other middle => simp

theorem run_pure_ok {a b : α} :
    (pure a : Infer α) trace = .ok b trace' ↔ a = b ∧ trace = trace' := by
  change EStateM.Result.ok a trace = _ ↔ _
  simp

theorem run_map_ok {f : α → β} {m : Infer α} {b : β} :
    (f <$> m) trace = .ok b trace' ↔ ∃ a, m trace = .ok a trace' ∧ f a = b := by
  change EStateM.map f m trace = _ ↔ _
  unfold EStateM.map
  cases m trace with
  | ok a middle =>
      simp only [EStateM.Result.ok.injEq]
      constructor
      · rintro ⟨rfl, rfl⟩
        exact ⟨a, ⟨rfl, rfl⟩, rfl⟩
      · rintro ⟨_, ⟨rfl, rfl⟩, rfl⟩
        exact ⟨rfl, rfl⟩
  | error fault middle => simp

theorem run_fresh (trace : Trace) :
    fresh trace = .ok (Supply.placeholder trace.counter)
      { trace with counter := trace.counter + 1 } := rfl

theorem run_note (event : Event) (trace : Trace) :
    note event trace = .ok () { trace with events := trace.events.push event } := rfl

theorem run_fresh_bind {f : Ty → Infer β} : (fresh >>= f) trace =
    f (Supply.placeholder trace.counter) { trace with counter := trace.counter + 1 } := rfl

theorem run_note_bind {event : Event} {f : Unit → Infer β} : (note event >>= f) trace =
    f () { trace with events := trace.events.push event } := rfl

theorem run_get_bind {f : Trace → Infer β} : (get >>= f) trace = f trace trace := rfl

theorem run_lift_ok {m : Except Fault α} {a : α} :
    lift m trace = .ok a trace' ↔ m = .ok a ∧ trace' = trace := by
  cases m with
  | ok b =>
      change EStateM.Result.ok b trace = _ ↔ _
      simp [eq_comm]
  | error fault =>
      change EStateM.Result.error fault trace = _ ↔ _
      simp

theorem run_lift_error {m : Except Fault α} {fault : Fault} :
    lift m trace = .error fault trace' ↔ m = .error fault ∧ trace' = trace := by
  cases m with
  | ok b =>
      change EStateM.Result.ok b trace = _ ↔ _
      simp
  | error other =>
      change EStateM.Result.error other trace = _ ↔ _
      simp [eq_comm]

theorem run_solve_ok {cs : List Constraint} {s : Subst} :
    solve cs trace = .ok s trace' ↔ ∃ solution, Unify.solve cs = .ok solution ∧
      s = solution.subst ∧
      trace' = { trace with events := trace.events.push (.settled solution.rounds) } := by
  simp only [solve, run_bind_ok, run_lift_ok, run_note, run_pure_ok, EStateM.Result.ok.injEq]
  constructor
  · rintro ⟨solution, _, ⟨solved, rfl⟩, _, _, ⟨-, rfl⟩, rfl, rfl⟩
    exact ⟨solution, solved, rfl, rfl⟩
  · rintro ⟨solution, solved, rfl, rfl⟩
    exact ⟨solution, trace, ⟨solved, rfl⟩, (), _, ⟨trivial, rfl⟩, rfl, rfl⟩

theorem run_lift_bind_ok {m : Except Fault α} {f : α → Infer β} {b : β} :
    (lift m >>= f) trace = .ok b trace' ↔ ∃ a, m = .ok a ∧ f a trace = .ok b trace' := by
  simp only [run_bind_ok, run_lift_ok]
  constructor
  · rintro ⟨a, _, ⟨lifted, rfl⟩, h⟩
    exact ⟨a, lifted, h⟩
  · rintro ⟨a, lifted, h⟩
    exact ⟨a, trace, ⟨lifted, rfl⟩, h⟩

theorem run_lift_bind_error {m : Except Fault α} {f : α → Infer β} {fault : Fault} :
    (lift m >>= f) trace = .error fault trace' ↔
      m = .error fault ∧ trace' = trace ∨ ∃ a, m = .ok a ∧ f a trace = .error fault trace' := by
  simp only [run_bind_error, run_lift_error, run_lift_ok]
  refine or_congr_right ⟨?_, ?_⟩
  · rintro ⟨a, _, ⟨lifted, rfl⟩, h⟩
    exact ⟨a, lifted, h⟩
  · rintro ⟨a, lifted, h⟩
    exact ⟨a, trace, ⟨lifted, rfl⟩, h⟩

theorem run_solve_bind_ok {cs : List Constraint} {f : Subst → Infer β} {b : β} :
    (solve cs >>= f) trace = .ok b trace' ↔ ∃ solution, Unify.solve cs = .ok solution ∧
      f solution.subst { trace with events := trace.events.push (.settled solution.rounds) } =
        .ok b trace' := by
  rw [solve, bind_assoc]
  exact run_lift_bind_ok

theorem run_solve_bind_error {cs : List Constraint} {f : Subst → Infer β} {fault : Fault} :
    (solve cs >>= f) trace = .error fault trace' ↔
      Unify.solve cs = .error fault ∧ trace' = trace ∨ ∃ solution, Unify.solve cs = .ok solution ∧
        f solution.subst { trace with events := trace.events.push (.settled solution.rounds) } =
          .error fault trace' := by
  rw [solve, bind_assoc]
  exact run_lift_bind_error

theorem run_instantiate_ok {scheme t : Ty} :
    instantiate scheme trace = .ok t trace' ↔
      Ty.instanceAt trace.counter scheme.quantified scheme.core = .ok t ∧
        trace' = { trace with counter := trace.counter + scheme.quantified.length } := by
  have loop : ∀ (bound : List String) (b : Ty) (trace : Trace),
      (bound.foldlM (fun t name => do
        let placeholder ← fresh
        lift (t.replace name placeholder)) b : Infer Ty) trace = .ok t trace' ↔
      Ty.instanceAt trace.counter bound b = .ok t ∧
        trace' = { trace with counter := trace.counter + bound.length } := by
    intro bound
    induction bound with
    | nil =>
        intro b trace
        simp [run_pure_ok, Ty.instanceAt, eq_comm]
    | cons x bound ih =>
        intro b trace
        simp only [List.foldlM_cons, run_bind_ok, run_fresh, run_lift_ok, ih, Ty.instanceAt,
          bind_eq_ok, EStateM.Result.ok.injEq, List.length_cons]
        constructor
        · rintro ⟨u, _, ⟨_, _, ⟨rfl, rfl⟩, replaced, rfl⟩, rest, rfl⟩
          exact ⟨⟨u, replaced, rest⟩, by simp [Nat.add_assoc, Nat.add_comm 1]⟩
        · rintro ⟨⟨u, replaced, rest⟩, rfl⟩
          exact ⟨u, _, ⟨_, _, ⟨rfl, rfl⟩, replaced, rfl⟩, rest,
            by simp [Nat.add_assoc, Nat.add_comm 1]⟩
  cases scheme with
  | poly bound b => exact loop bound b trace
  | prim | var | arrow | foreign =>
      change (pure _ : Infer Ty) trace = _ ↔ Except.ok _ = _ ∧ trace' = trace
      rw [run_pure_ok, Except.ok.injEq]
      exact and_congr_right fun _ => eq_comm

end Infer

theorem letScheme_eq_ok {env : Env} {recursive : Bool} {s : Subst} {t scheme : Ty} :
    letScheme env recursive s t = .ok scheme ↔ ∃ refined solved, env.refine s = .ok refined ∧
      s.apply t = .ok solved ∧
      scheme = if recursive then solved else refined.generalize solved := by
  simp only [letScheme, bind_eq_ok]
  constructor
  · rintro ⟨refined, refines, solved, applies, ⟨⟩⟩
    exact ⟨refined, solved, refines, applies, rfl⟩
  · rintro ⟨refined, solved, refines, applies, rfl⟩
    exact ⟨refined, refines, solved, applies, rfl⟩

/-- From counter `n`, generating the equations of `e` gives `g` and leaves the counter at `m`. -/
inductive Generates : Env → Nat → Program → Generated → Nat → Prop
  | int {env n place value} :
      Generates env n (.int place value) ⟨.int (place, .int) value, []⟩ n
  | bool {env n place value} :
      Generates env n (.bool place value) ⟨.bool (place, .bool) value, []⟩ n
  | str {env n place value} :
      Generates env n (.str place value) ⟨.str (place, .string) value, []⟩ n
  | ident {env n place name scheme t} :
      env.get? name = some scheme →
      Ty.instanceAt n scheme.quantified scheme.core = .ok t →
      Generates env n (.ident place name) ⟨.ident (place, t) name, []⟩
        (n + scheme.quantified.length)
  | func {env n place parameter body g m} :
      Generates (env.extend parameter (Supply.placeholder n)) (n + 2) body g m →
      Generates env n (.func place parameter body)
        ⟨.func (place, .arrow (Supply.placeholder n) (Supply.placeholder (n + 1))) parameter
          g.tree, g.constraints ++ [⟨g.type, Supply.placeholder (n + 1), place⟩]⟩ m
  | not {env n place operand g m} :
      Generates env n operand g m →
      Generates env n (.not place operand)
        ⟨.not (place, .bool) g.tree, g.constraints ++ [⟨g.type, .bool, place⟩]⟩ m
  | binary {env n place op left right l k r m} :
      Generates env n left l k →
      Generates env k right r m →
      Generates env n (.binary place op left right)
        ⟨.binary (place, (op.typing place l.type r.type).1) op l.tree r.tree,
          l.constraints ++ r.constraints ++ (op.typing place l.type r.type).2⟩ m
  | cond {env n place test yes no c j y k z m} :
      Generates env n test c j →
      Generates env j yes y k →
      Generates env k no z m →
      Generates env n (.cond place test yes no)
        ⟨.cond (place, y.type) c.tree y.tree z.tree,
          c.constraints ++ y.constraints ++ z.constraints ++
            [⟨c.type, .bool, place⟩, ⟨y.type, z.type, place⟩]⟩ m
  | call {env n place callee argument f k a m} :
      Generates env n callee f k →
      Generates env k argument a m →
      Generates env n (.call place callee argument)
        ⟨.call (place, Supply.placeholder m) f.tree a.tree,
          f.constraints ++ a.constraints ++
            [⟨f.type, .arrow a.type (Supply.placeholder m), place⟩]⟩ (m + 1)
  | letPlain {env n place name value body v k solution refined solved b m} :
      Generates env n value v k →
      Unify.solve v.constraints = .ok solution →
      env.refine solution.subst = .ok refined →
      solution.subst.apply v.type = .ok solved →
      Generates (env.extend name (refined.generalize solved)) k body b m →
      Generates env n (.letIn place name false value body)
        ⟨.letIn (place, b.type) name false v.tree b.tree, v.constraints ++ b.constraints⟩ m
  | letRec {env n place name value body v k solution refined solved b m} :
      Generates (env.extend name (Supply.placeholder n)) (n + 1) value v k →
      Unify.solve v.constraints = .ok solution →
      env.refine solution.subst = .ok refined →
      solution.subst.apply v.type = .ok solved →
      Generates (env.extend name solved) k body b m →
      Generates env n (.letIn place name true value body)
        ⟨.letIn (place, b.type) name true v.tree b.tree, v.constraints ++ b.constraints⟩ m

theorem generates_of_ok {env : Env} {e : Program} {trace trace' : Trace} {g : Generated}
    (h : generate env e trace = .ok g trace') :
    Generates env trace.counter e g trace'.counter := by
  induction e generalizing env trace g trace' with
  | int place value =>
      obtain ⟨rfl, rfl⟩ := Infer.run_pure_ok.1 h
      exact .int
  | bool place value =>
      obtain ⟨rfl, rfl⟩ := Infer.run_pure_ok.1 h
      exact .bool
  | str place value =>
      obtain ⟨rfl, rfl⟩ := Infer.run_pure_ok.1 h
      exact .str
  | ident place name =>
      cases found : env.get? name with
      | none =>
          simp only [generate, found] at h
          cases h
      | some scheme =>
          simp only [generate, found, Infer.run_bind_ok, Infer.run_instantiate_ok] at h
          obtain ⟨t, _, ⟨placed, rfl⟩, ended⟩ := h
          obtain ⟨rfl, rfl⟩ := Infer.run_pure_ok.1 ended
          exact .ident found placed
  | func place parameter body ih =>
      rw [generate, Infer.run_fresh_bind, Infer.run_fresh_bind] at h
      obtain ⟨g, middle, generated, ended⟩ := Infer.run_bind_ok.1 h
      obtain ⟨rfl, rfl⟩ := Infer.run_pure_ok.1 ended
      exact .func (ih generated)
  | not place operand ih =>
      obtain ⟨g, middle, generated, ended⟩ := Infer.run_bind_ok.1 h
      obtain ⟨rfl, rfl⟩ := Infer.run_pure_ok.1 ended
      exact .not (ih generated)
  | binary place op left right ihl ihr =>
      obtain ⟨l, first, generatedLeft, h⟩ := Infer.run_bind_ok.1 h
      obtain ⟨r, second, generatedRight, ended⟩ := Infer.run_bind_ok.1 h
      obtain ⟨rfl, rfl⟩ := Infer.run_pure_ok.1 ended
      exact .binary (ihl generatedLeft) (ihr generatedRight)
  | cond place test yes no iht ihy ihn =>
      obtain ⟨c, first, generatedTest, h⟩ := Infer.run_bind_ok.1 h
      obtain ⟨y, second, generatedYes, h⟩ := Infer.run_bind_ok.1 h
      obtain ⟨z, third, generatedNo, ended⟩ := Infer.run_bind_ok.1 h
      obtain ⟨rfl, rfl⟩ := Infer.run_pure_ok.1 ended
      exact .cond (iht generatedTest) (ihy generatedYes) (ihn generatedNo)
  | call place callee argument ihc iha =>
      obtain ⟨f, first, generatedCallee, h⟩ := Infer.run_bind_ok.1 h
      obtain ⟨a, second, generatedArgument, h⟩ := Infer.run_bind_ok.1 h
      rw [Infer.run_fresh_bind] at h
      obtain ⟨rfl, rfl⟩ := Infer.run_pure_ok.1 h
      exact .call (ihc generatedCallee) (iha generatedArgument)
  | letIn place name recursive value body ihv ihb =>
      obtain ⟨scope, start, opens, h⟩ := Infer.run_bind_ok.1 h
      obtain ⟨v, middle, generatedValue, h⟩ := Infer.run_bind_ok.1 h
      obtain ⟨solution, solves, h⟩ := Infer.run_solve_bind_ok.1 h
      obtain ⟨scheme, schemed, h⟩ := Infer.run_lift_bind_ok.1 h
      rw [Infer.run_note_bind] at h
      obtain ⟨b, last, generatedBody, ended⟩ := Infer.run_bind_ok.1 h
      obtain ⟨rfl, rfl⟩ := Infer.run_pure_ok.1 ended
      obtain ⟨refined, solved, refines, applies, rfl⟩ := letScheme_eq_ok.1 schemed
      cases recursive with
      | false =>
          obtain ⟨rfl, rfl⟩ := Infer.run_pure_ok.1 opens
          simp only [Bool.false_eq_true, ↓reduceIte] at generatedBody
          have generatesBody := ihb generatedBody
          exact .letPlain (ihv generatedValue) solves refines applies generatesBody
      | true =>
          obtain ⟨rfl, rfl⟩ := Infer.run_pure_ok.1 opens
          simp only [↓reduceIte] at generatedBody
          have generatesBody := ihb generatedBody
          exact .letRec (ihv generatedValue) solves refines applies generatesBody

theorem generate_letIn {env scope : Env} {place : Option Location} {name : Text} {recursive : Bool}
    {value body : Program} {trace start middle trace' : Trace} {v b : Generated}
    {solution : Unify.Solution} {scheme : Ty}
    (opens : letScope env recursive name trace = .ok scope start)
    (generated : generate scope value start = .ok v middle)
    (solves : Unify.solve v.constraints = .ok solution)
    (schemed : letScheme env recursive solution.subst v.type = .ok scheme)
    (rest : generate (env.extend name scheme) body { middle with
      events := (middle.events.push (.settled solution.rounds)).push (.bound name scheme) } =
        .ok b trace') :
    generate env (.letIn place name recursive value body) trace =
      .ok ⟨.letIn (place, b.type) name recursive v.tree b.tree, v.constraints ++ b.constraints⟩
        trace' := by
  rw [generate, Infer.run_bind_of_ok opens, Infer.run_bind_of_ok generated]
  refine Infer.run_solve_bind_ok.2 ⟨solution, solves, ?_⟩
  refine Infer.run_lift_bind_ok.2 ⟨scheme, schemed, ?_⟩
  rw [Infer.run_note_bind, Infer.run_bind_of_ok rest]
  rfl

theorem Generates.run {env : Env} {n m : Nat} {e : Program} {g : Generated}
    (h : Generates env n e g m) (events : Array Event) :
    ∃ events', generate env e ⟨n, events⟩ = .ok g ⟨m, events'⟩ := by
  induction h generalizing events with
  | int | bool | str => exact ⟨events, rfl⟩
  | ident found placed =>
      simp only [generate, found, Infer.run_bind_ok, Infer.run_instantiate_ok]
      exact ⟨events, _, _, ⟨placed, rfl⟩, rfl⟩
  | func _ ih =>
      obtain ⟨events', generated⟩ := ih events
      refine ⟨events', ?_⟩
      rw [generate, Infer.run_fresh_bind, Infer.run_fresh_bind]
      exact Infer.run_bind_ok.2 ⟨_, _, generated, rfl⟩
  | not _ ih =>
      obtain ⟨events', generated⟩ := ih events
      exact ⟨events', Infer.run_bind_ok.2 ⟨_, _, generated, rfl⟩⟩
  | binary _ _ ihl ihr =>
      obtain ⟨first, generatedLeft⟩ := ihl events
      obtain ⟨second, generatedRight⟩ := ihr first
      refine ⟨second, Infer.run_bind_ok.2 ⟨_, _, generatedLeft, ?_⟩⟩
      exact Infer.run_bind_ok.2 ⟨_, _, generatedRight, rfl⟩
  | cond _ _ _ iht ihy ihn =>
      obtain ⟨first, generatedTest⟩ := iht events
      obtain ⟨second, generatedYes⟩ := ihy first
      obtain ⟨third, generatedNo⟩ := ihn second
      refine ⟨third, Infer.run_bind_ok.2 ⟨_, _, generatedTest, ?_⟩⟩
      refine Infer.run_bind_ok.2 ⟨_, _, generatedYes, ?_⟩
      exact Infer.run_bind_ok.2 ⟨_, _, generatedNo, rfl⟩
  | call _ _ ihc iha =>
      obtain ⟨first, generatedCallee⟩ := ihc events
      obtain ⟨second, generatedArgument⟩ := iha first
      refine ⟨second, Infer.run_bind_ok.2 ⟨_, _, generatedCallee, ?_⟩⟩
      exact Infer.run_bind_ok.2 ⟨_, _, generatedArgument, rfl⟩
  | letPlain _ solves refines applies _ ihv ihb =>
      obtain ⟨first, generatedValue⟩ := ihv events
      obtain ⟨second, generatedBody⟩ := ihb _
      refine ⟨second, generate_letIn rfl generatedValue solves ?_ generatedBody⟩
      exact letScheme_eq_ok.2 ⟨_, _, refines, applies, rfl⟩
  | letRec _ solves refines applies _ ihv ihb =>
      obtain ⟨first, generatedValue⟩ := ihv events
      obtain ⟨second, generatedBody⟩ := ihb _
      refine ⟨second, generate_letIn rfl generatedValue solves ?_ generatedBody⟩
      exact letScheme_eq_ok.2 ⟨_, _, refines, applies, rfl⟩

namespace Program

theorem run_ok {annotate : Bool} {e : Program} {result : Inference} {trace : Trace}
    (h : e.run annotate = .ok result trace) :
    ∃ g m solution, Generates [] 0 e g m ∧ Unify.solve g.constraints = .ok solution ∧
      solution.subst.apply g.type = .ok result.type ∧
      result.subst = solution.subst ∧ result.constraints = g.constraints ∧
      if annotate then ∃ tree, result.tree = some tree ∧ g.tree.resolve solution.subst = .ok tree
      else result.tree = none := by
  change e.inferM annotate {} = _ at h
  obtain ⟨g, middle, generated, h⟩ := Infer.run_bind_ok.1 h
  rw [Infer.run_note_bind] at h
  obtain ⟨solution, solves, h⟩ := Infer.run_solve_bind_ok.1 h
  rw [Infer.run_get_bind, Infer.run_note_bind, Infer.run_note_bind] at h
  have generates := generates_of_ok generated
  cases annotate with
  | false =>
      obtain ⟨type, applies, ended⟩ := Infer.run_lift_bind_ok.1 h
      obtain ⟨rfl, -⟩ := Infer.run_pure_ok.1 ended
      exact ⟨g, middle.counter, solution, generates, solves, applies, rfl, rfl, rfl⟩
  | true =>
      obtain ⟨tree, _, resolved, h⟩ := Infer.run_bind_ok.1 h
      obtain ⟨tree, resolves, rfl⟩ := Infer.run_map_ok.1 resolved
      obtain ⟨type, applies, ended⟩ := Infer.run_lift_bind_ok.1 h
      obtain ⟨rfl, -⟩ := Infer.run_pure_ok.1 ended
      have whole := (Infer.run_lift_ok.1 resolves).1
      exact ⟨g, middle.counter, solution, generates, solves, applies, rfl, rfl, tree, rfl, whole⟩

theorem exists_run {e : Program} {g : Generated} {trace : Trace} {solution : Unify.Solution}
    {tree : Annotated} {t : Ty} (generated : generate [] e {} = .ok g trace)
    (solves : Unify.solve g.constraints = .ok solution)
    (resolves : g.tree.resolve solution.subst = .ok tree)
    (applies : solution.subst.apply g.type = .ok t) :
    ∃ result trace, e.run true = .ok result trace ∧ result.tree = some tree := by
  rw [run, EStateM.run, inferM, Infer.run_bind_of_ok generated, Infer.run_note_bind,
    Infer.run_bind_of_ok (Infer.run_solve_ok.2 ⟨solution, solves, rfl, rfl⟩), resolves, applies]
  exact ⟨_, _, rfl, rfl⟩

theorem infer_ok {e : Program} {t : Ty} :
    e.infer = .ok t ↔ ∃ g m solution, Generates [] 0 e g m ∧
      Unify.solve g.constraints = .ok solution ∧ solution.subst.apply g.type = .ok t := by
  constructor
  · intro h
    rw [infer] at h
    split at h
    · rename_i result trace ran
      cases h
      obtain ⟨g, m, solution, generates, solves, applies, -⟩ := run_ok ran
      exact ⟨g, m, solution, generates, solves, applies⟩
    · cases h
  · rintro ⟨g, m, solution, generates, solves, applies⟩
    obtain ⟨events, generated⟩ := generates.run #[]
    rw [infer, run, EStateM.run, inferM, Infer.run_bind_of_ok generated, Infer.run_note_bind,
      Infer.run_bind_of_ok (Infer.run_solve_ok.2 ⟨solution, solves, rfl, rfl⟩), applies]
    rfl

end Program

end HindleyMilner

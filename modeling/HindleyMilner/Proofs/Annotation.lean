import HindleyMilner.Proofs.Generic

/-!
The types of an annotated program. A node obeys the rule of its kind together with its children and
with the uses of the name it binds. Generation writes placeholders, and a generic solution of the
equations makes every node obey its rule. That it solves the equations is enough for all rules but
one: the uses of a name bound by a plain `let` need that it is generic.
-/

namespace HindleyMilner

namespace Expr

variable {ν μ : Type}

def nodes : Expr ν → List (Expr ν)
  | func note parameter body => func note parameter body :: body.nodes
  | not note operand => not note operand :: operand.nodes
  | binary note op left right => binary note op left right :: (left.nodes ++ right.nodes)
  | cond note test yes no => cond note test yes no :: (test.nodes ++ yes.nodes ++ no.nodes)
  | call note callee argument => call note callee argument :: (callee.nodes ++ argument.nodes)
  | letIn note name recursive value body =>
      letIn note name recursive value body :: (value.nodes ++ body.nodes)
  | leaf => [leaf]

theorem loose_map (f : ν → μ) (e : Expr ν) :
    (e.map f).loose = e.loose.map fun use => (use.1, f use.2) := by
  induction e with
  | int | bool | str | ident => rfl
  | func note parameter body ih => simp [map, loose, ih, List.filter_map, Function.comp_def]
  | not note operand ih => simp [map, loose, ih]
  | binary note op left right ihl ihr => simp [map, loose, ihl, ihr]
  | cond note test yes no iht ihy ihn => simp [map, loose, iht, ihy, ihn]
  | call note callee argument ihc iha => simp [map, loose, ihc, iha]
  | letIn note name recursive value body ihv ihb =>
      cases recursive <;> simp [map, loose, ihv, ihb, List.filter_map, Function.comp_def]

theorem mapM_eq_ok {f : ν → Except Fault μ} {g : ν → μ} {e : Expr ν}
    (h : ∀ note ∈ e.notes, f note = .ok (g note)) : e.mapM f = .ok (e.map g) := by
  induction e with
  | int | bool | str | ident =>
      simp only [notes, List.forall_mem_singleton] at h
      rw [mapM, h]
      rfl
  | func note parameter body ih | not note body ih =>
      simp only [notes, List.forall_mem_cons] at h
      rw [mapM, h.1, ih h.2]
      rfl
  | binary note op left right ihl ihr | call note left right ihl ihr
  | letIn note op recursive left right ihl ihr =>
      simp only [notes, List.forall_mem_cons, List.forall_mem_append] at h
      rw [mapM, h.1, ihl h.2.1, ihr h.2.2]
      rfl
  | cond note test yes no iht ihy ihn =>
      simp only [notes, List.forall_mem_cons, List.forall_mem_append] at h
      rw [mapM, h.1, iht h.2.1.1, ihy h.2.1.2, ihn h.2.2]
      rfl

end Expr

namespace Annotated

def assign (S : Assignment) (tree : Annotated) : Annotated :=
  tree.map fun note => (note.1, note.2.assign S)

theorem type_assign (S : Assignment) (tree : Annotated) :
    (tree.assign S).type = tree.type.assign S := by
  cases tree <;> rfl

theorem erase_assign (S : Assignment) (tree : Annotated) : (tree.assign S).erase = tree.erase := by
  unfold assign erase
  induction tree <;> simp_all [Expr.map]

theorem exists_of_mem_loose_assign {S : Assignment} {tree : Annotated}
    {use : Text × Option Location × Ty} (h : use ∈ (tree.assign S).loose) :
    ∃ raw ∈ tree.loose, use.1 = raw.1 ∧ use.2.2 = raw.2.2.assign S := by
  rw [assign, Expr.loose_map] at h
  obtain ⟨raw, hr, rfl⟩ := List.mem_map.1 h
  exact ⟨raw, hr, rfl, rfl⟩

theorem resolve_of_mono {s : Subst} (solved : s.Solved) {tree : Annotated}
    (mono : ∀ t ∈ tree.types, t.Mono) : tree.resolve s = .ok (tree.assign s.value) := by
  refine Expr.mapM_eq_ok fun note hn => bind_eq_ok.2 ⟨_, ?_, rfl⟩
  exact solved.apply (mono note.2 (List.mem_map_of_mem hn))

/-- The rule of a node, with the types of its children and of the names that it binds. -/
def Obeys : Annotated → Prop
  | .int note _ => note.2 = .int
  | .bool note _ => note.2 = .bool
  | .str note _ => note.2 = .string
  | .ident .. => True
  | .func note parameter body => ∃ d, note.2 = .arrow d (type body) ∧
      ∀ use ∈ body.loose, use.1 = parameter → use.2.2 = d
  | .not note operand => type operand = .bool ∧ note.2 = .bool
  | .binary note op left right =>
      match op.category with
      | .arithmetic => type left = .int ∧ type right = .int ∧ note.2 = .int
      | .concatenation => type left = .string ∧ type right = .string ∧ note.2 = .string
      | .comparison => type left = type right ∧ note.2 = .bool
      | .logical => type left = .bool ∧ type right = .bool ∧ note.2 = .bool
  | .cond note test yes no => type test = .bool ∧ type yes = type no ∧ note.2 = type yes
  | .call note callee argument => type callee = .arrow (type argument) note.2
  | .letIn note name false value body => note.2 = type body ∧
      ∀ use ∈ body.loose, use.1 = name →
        ∃ δ : Assignment, δ.Mono ∧ use.2.2 = (type value).assign δ
  | .letIn note name true value body => note.2 = type body ∧
      (∃ self, ∀ use ∈ value.loose, use.1 = name → use.2.2 = self) ∧
      ∀ use ∈ body.loose, use.1 = name → use.2.2 = type value

end Annotated

theorem Generates.erase {env : Env} {n m : Nat} {e : Program} {g : Generated}
    (h : Generates env n e g m) : g.tree.erase = e := by
  induction h <;> simp_all [Annotated.erase, Expr.map]

def Env.Explains (env : Env) (use : Text × Option Location × Ty) : Prop :=
  ∃ scheme, env.get? use.1 = some scheme ∧ Instance scheme use.2.2

theorem Env.explains_unbind {env : Env} {name : Text} {t : Ty}
    {uses : List (Text × Option Location × Ty)}
    (h : ∀ use ∈ uses, (env.extend name t).Explains use) :
    ∀ use ∈ uses.filter (·.1 ≠ name), env.Explains use := by
  intro use hu
  simp only [List.mem_filter, decide_eq_true_eq] at hu
  simpa only [Explains, get?_extend_ne hu.2] using h use hu.1

theorem Generates.uses {env : Env} {n m : Nat} {e : Program} {g : Generated}
    (h : Generates env n e g m) (ready : env.Ready n) : ∀ use ∈ g.tree.loose, env.Explains use := by
  induction h with
  | int | bool | str => simp [Expr.loose]
  | @ident env n place name scheme t found placed =>
      rw [ready.toPlain.instanceAt found] at placed
      cases placed
      simp only [Expr.loose, List.forall_mem_singleton]
      exact ⟨scheme, found, _, Ty.freshen_mono n _, fun x => Ty.freshen_of_notMem, rfl⟩
  | @func env n place parameter body g m _ ih =>
      exact Env.explains_unbind (ih (ready.parameter parameter (by omega)))
  | not _ ih => exact ih ready
  | binary left _ ihl ihr =>
      exact List.forall_mem_append.2 ⟨ihl ready, ihr (ready.after left)⟩
  | cond test yes _ iht ihy ihn =>
      have readyYes := ready.after test
      exact List.forall_mem_append.2
        ⟨List.forall_mem_append.2 ⟨iht ready, ihy readyYes⟩, ihn (readyYes.after yes)⟩
  | call callee _ ihc iha =>
      exact List.forall_mem_append.2 ⟨ihc ready, iha (ready.after callee)⟩
  | letPlain value solves refines applies _ ihv ihb =>
      obtain ⟨-, -, readyBody⟩ := value.settle ready solves refines applies
      exact List.forall_mem_append.2 ⟨ihv ready, Env.explains_unbind (ihb readyBody)⟩
  | @letRec _ n _ name _ _ _ _ _ _ _ _ _ value solves refines applies _ ihv ihb =>
      obtain ⟨-, -, readyBody⟩ := value.settle_recursive ready solves refines applies
      have inner := ready.parameter name (Nat.lt_succ_self n)
      exact List.forall_mem_append.2
        ⟨Env.explains_unbind (ihv inner), Env.explains_unbind (ihb readyBody)⟩

theorem Generates.uses_bound {env : Env} {n m : Nat} {e : Program} {g : Generated} {name : Text}
    {t : Ty} (h : Generates (env.extend name t) n e g m) (ready : (env.extend name t).Ready n) :
    ∀ use ∈ g.tree.loose, use.1 = name → Instance t use.2.2 := by
  intro use hu bound
  obtain ⟨scheme, found, inst⟩ := h.uses ready use hu
  rw [bound, Env.get?_extend_self] at found
  cases found
  exact inst

theorem obeys_binary {op : Operator} {place : Option Location} {l r : Annotated} {S : Assignment}
    (unifies : Unifies S (op.typing place l.type r.type).2) :
    Annotated.Obeys (.binary (place, (op.typing place l.type r.type).1.assign S) op (l.assign S)
      (r.assign S)) := by
  cases category : op.category <;>
    simp_all [Annotated.Obeys, Annotated.type_assign, Operator.typing,
      Operator.Category.operand?, Ty.assign, Ty.int, Ty.bool, Ty.string]

section

variable {env : Env} {n m : Nat} {e : Program} {g : Generated} {S : Assignment}

theorem Generates.obeys_root (h : Generates env n e g m) (ready : env.Ready n) (hS : S.Mono)
    (unifies : Unifies S g.constraints) (generic : Generic S n g m) :
    Annotated.Obeys (g.tree.assign S) := by
  cases h with
  | int | bool | str => rfl
  | ident => trivial
  | @func _ _ _ parameter _ g _ body =>
      simp only [unifies_append, unifies_cons] at unifies
      refine ⟨S (Supply.name n), ?_, fun use hu bound => ?_⟩
      · change Ty.arrow (S _) (S _) = Ty.arrow (S _) (g.tree.assign S).type
        rw [Annotated.type_assign]
        exact congrArg _ unifies.2.1.symm
      · obtain ⟨raw, hr, name, type⟩ := Annotated.exists_of_mem_loose_assign hu
        have inner := ready.parameter parameter (show n < n + 2 by omega)
        have domain : (Supply.placeholder n).Mono := trivial
        rw [type, (body.uses_bound inner raw hr (name.symm.trans bound)).eq domain]
        rfl
  | not =>
      simp only [unifies_append, unifies_cons] at unifies
      exact ⟨(Annotated.type_assign S _).trans unifies.2.1, rfl⟩
  | binary =>
      simp only [unifies_append] at unifies
      exact obeys_binary unifies.2
  | cond =>
      simp only [unifies_append, unifies_cons] at unifies
      refine ⟨?_, ?_, (Annotated.type_assign S _).symm⟩
      · exact (Annotated.type_assign S _).trans unifies.2.1
      · exact (Annotated.type_assign S _).trans
          (unifies.2.2.1.trans (Annotated.type_assign S _).symm)
  | @call _ _ _ _ _ f _ a m =>
      simp only [unifies_append, unifies_cons] at unifies
      change (f.tree.assign S).type = .arrow (a.tree.assign S).type (S (Supply.name m))
      rw [Annotated.type_assign, Annotated.type_assign]
      exact unifies.2.1
  | @letPlain _ _ _ _ _ _ v _ _ _ _ _ _ value solves refines applies body =>
      obtain ⟨rfl, settled, readyBody⟩ := value.settle ready solves refines applies
      simp only [unifies_append] at unifies
      refine ⟨(Annotated.type_assign S _).symm, fun use hu bound => ?_⟩
      obtain ⟨raw, hr, named, type⟩ := Annotated.exists_of_mem_loose_assign hu
      change ∃ δ : Assignment, δ.Mono ∧ use.2.2 = (v.tree.assign S).type.assign δ
      rw [Annotated.type_assign, type]
      exact settled.exists_instance ready (value.bounded ready.toPlain)
        (body.bounded readyBody.toPlain) hS unifies.1 unifies.2 generic
        (body.uses_bound readyBody raw hr (named.symm.trans bound))
  | @letRec _ _ _ name _ _ v _ _ _ _ _ _ value solves refines applies body =>
      obtain ⟨rfl, settled, readyBody⟩ := value.settle_recursive ready solves refines applies
      simp only [unifies_append] at unifies
      have inner := ready.parameter name (Nat.lt_succ_self n)
      have mono := (value.bounded inner.toPlain).type.1
      refine ⟨(Annotated.type_assign S _).symm, ⟨S (Supply.name n), fun use hu bound => ?_⟩,
        fun use hu bound => ?_⟩
      · obtain ⟨raw, hr, named, type⟩ := Annotated.exists_of_mem_loose_assign hu
        have self : (Supply.placeholder n).Mono := trivial
        rw [type, (value.uses_bound inner raw hr (named.symm.trans bound)).eq self]
        rfl
      · obtain ⟨raw, hr, named, type⟩ := Annotated.exists_of_mem_loose_assign hu
        have solved := mono.assign fun x _ => settled.general.solved.value_mono x
        change use.2.2 = (v.tree.assign S).type
        rw [type, (body.uses_bound readyBody raw hr (named.symm.trans bound)).eq solved,
          settled.general.assign_value unifies.1 mono, Annotated.type_assign]
        rfl

theorem Generates.obeys (h : Generates env n e g m) (ready : env.Ready n) (hS : S.Mono)
    (unifies : Unifies S g.constraints) (generic : Generic S n g m) :
    ∀ node ∈ (g.tree.assign S).nodes, Annotated.Obeys node := by
  induction h with
  | int | bool | str => exact List.forall_mem_singleton.2 rfl
  | ident => exact List.forall_mem_singleton.2 trivial
  | @func _ n _ parameter _ _ _ body ih =>
      have root := (Generates.func body).obeys_root ready hS unifies generic
      simp only [unifies_append, unifies_cons] at unifies
      have inner := ready.parameter parameter (show n < n + 2 by omega)
      exact List.forall_mem_cons.2 ⟨root, ih inner unifies.1 (generic.func unifies.2.1)⟩
  | not operand ih =>
      have root := (Generates.not operand).obeys_root ready hS unifies generic
      simp only [unifies_append, unifies_cons] at unifies
      exact List.forall_mem_cons.2 ⟨root, ih ready unifies.1 (generic.not unifies.2.1)⟩
  | binary left right ihl ihr =>
      have root := (Generates.binary left right).obeys_root ready hS unifies generic
      have readyRight := ready.after left
      have parts := generic.binary ready.toPlain (left.bounded ready.toPlain)
        (right.bounded readyRight.toPlain) unifies
      simp only [unifies_append] at unifies
      exact List.forall_mem_cons.2 ⟨root, List.forall_mem_append.2
        ⟨ihl ready unifies.1.1 parts.1, ihr readyRight unifies.1.2 parts.2⟩⟩
  | cond test yes no iht ihy ihn =>
      have root := (Generates.cond test yes no).obeys_root ready hS unifies generic
      have readyYes := ready.after test
      have readyNo := readyYes.after yes
      have parts := generic.cond ready.toPlain (test.bounded ready.toPlain)
        (yes.bounded readyYes.toPlain) (no.bounded readyNo.toPlain) unifies
      simp only [unifies_append] at unifies
      exact List.forall_mem_cons.2 ⟨root, List.forall_mem_append.2 ⟨List.forall_mem_append.2
        ⟨iht ready unifies.1.1.1 parts.1, ihy readyYes unifies.1.1.2 parts.2.1⟩,
        ihn readyNo unifies.1.2 parts.2.2⟩⟩
  | call callee argument ihc iha =>
      have root := (Generates.call callee argument).obeys_root ready hS unifies generic
      have readyArgument := ready.after callee
      have parts := generic.call ready.toPlain (callee.bounded ready.toPlain)
        (argument.bounded readyArgument.toPlain) unifies
      simp only [unifies_append] at unifies
      exact List.forall_mem_cons.2 ⟨root, List.forall_mem_append.2
        ⟨ihc ready unifies.1.1 parts.1, iha readyArgument unifies.1.2 parts.2⟩⟩
  | @letPlain _ n _ _ _ _ _ _ _ refined _ _ _ value solves refines applies body ihv ihb =>
      have root := (Generates.letPlain value solves refines applies body).obeys_root ready hS
        unifies generic
      obtain ⟨rfl, settled, readyBody⟩ := value.settle ready solves refines applies
      have boundedValue := value.bounded ready.toPlain
      have drawn := boundedValue.solved settled.general boundedValue.type
      have parts := generic.letIn ready.toPlain settled.general (Nat.le_refl n) boundedValue
        (body.bounded readyBody.toPlain)
        (fun x hx => ((Env.mem_occurrences_generalize drawn.1 refined x).1 hx).1) unifies
      simp only [unifies_append] at unifies
      exact List.forall_mem_cons.2 ⟨root, List.forall_mem_append.2
        ⟨ihv ready unifies.1 parts.1, ihb readyBody unifies.2 parts.2⟩⟩
  | @letRec env n place name _ inside v k _ _ _ _ _ value solves refines applies body ihv ihb =>
      have root := (Generates.letRec value solves refines applies body).obeys_root ready hS
        unifies generic
      obtain ⟨rfl, settled, readyBody⟩ := value.settle_recursive ready solves refines applies
      have inner := ready.parameter name (Nat.lt_succ_self n)
      have outer : Bounded env n (.letIn place name true _ inside) v k :=
        (value.bounded inner.toPlain).recursive
      have parts := generic.letIn ready.toPlain settled.general (Nat.le_succ n) outer
        (body.bounded readyBody.toPlain) (fun _ => id) unifies
      simp only [unifies_append] at unifies
      exact List.forall_mem_cons.2 ⟨root, List.forall_mem_append.2
        ⟨ihv inner unifies.1 parts.1, ihb readyBody unifies.2 parts.2⟩⟩

end

theorem exists_solved_tree {e : Program} {result : Inference} {trace : Trace}
    (ran : e.run true = .ok result trace) :
    ∃ g m s, Generates [] 0 e g m ∧ Unify.MostGeneral s g.constraints ∧
      result.tree = some (g.tree.assign s.value) ∧ result.type = g.type.assign s.value := by
  obtain ⟨g, m, solution, generates, solves, applies, -, -, tree, annotated, resolves⟩ :=
    Program.run_ok ran
  have bounded := generates.bounded (.nil 0)
  have general := Unify.mostGeneral_of_ok bounded.mono solves
  rw [Annotated.resolve_of_mono general.solved fun t ht => (bounded.types t ht).1] at resolves
  rw [general.solved.apply bounded.type.1] at applies
  cases resolves
  exact ⟨g, m, solution.subst, generates, general, annotated, (Except.ok.inj applies).symm⟩

theorem exists_generic_tree {e : Program} {result : Inference} {trace : Trace}
    (ran : e.run true = .ok result trace) :
    ∃ g m, ∃ S : Assignment, Generates [] 0 e g m ∧ S.Mono ∧ Unifies S g.constraints ∧
      Generic S 0 g m ∧ result.tree = some (g.tree.assign S) ∧ result.type = g.type.assign S := by
  obtain ⟨g, m, s, generates, general, annotated, type⟩ := exists_solved_tree ran
  exact ⟨g, m, s.value, generates, general.solved.value_mono, general.unifies,
    fun θ unifies _ _ => (general.unifies_iff θ).1 unifies, annotated, type⟩

/-- The annotated program has the shape of the program, the inferred type at its root, and every
node obeys its rule. -/
theorem annotation_obeys_rules {e : Program} {result : Inference} {trace : Trace}
    (ran : e.run true = .ok result trace) :
    ∃ tree, result.tree = some tree ∧ tree.erase = e ∧ tree.type = result.type ∧
      ∀ node ∈ tree.nodes, Annotated.Obeys node := by
  obtain ⟨g, m, S, generates, hS, unifies, generic, annotated, type⟩ := exists_generic_tree ran
  refine ⟨_, annotated, ?_, ?_, generates.obeys (.nil 0) hS unifies generic⟩
  · rw [Annotated.erase_assign, generates.erase]
  · rw [Annotated.type_assign, type]
    rfl

theorem annotation_obeys_rules_identity :
    ∃ result trace tree,
      Program.run true (.letIn none "id" false (.func none "x" (.ident none "x"))
        (.cond none (.call none (.ident none "id") (.bool none true))
          (.call none (.ident none "id") (.int none 1)) (.int none 2))) = .ok result trace ∧
      result.tree = some tree ∧ tree.type = result.type ∧
      ∀ node ∈ tree.nodes, Annotated.Obeys node := by
  have value : Unify.solve [⟨.var "a", .var "b", none⟩] = .ok ⟨[("a", .var "b")], 2⟩ := by cbv
  have whole : Unify.solve [⟨.var "a", .var "b", none⟩,
      ⟨.arrow (.var "c") (.var "c"), .arrow .bool (.var "d"), none⟩,
      ⟨.arrow (.var "e") (.var "e"), .arrow .int (.var "f"), none⟩,
      ⟨.var "d", .bool, none⟩, ⟨.var "f", .int, none⟩] =
      .ok ⟨[("f", .int), ("e", .int), ("d", .bool), ("c", .bool), ("a", .var "b")], 2⟩ := by cbv
  have generated : generate [] (.letIn none "id" false (.func none "x" (.ident none "x"))
      (.cond none (.call none (.ident none "id") (.bool none true))
        (.call none (.ident none "id") (.int none 1)) (.int none 2))) {} = .ok _ _ :=
    generate_letIn rfl rfl value rfl rfl
  obtain ⟨result, trace, ran, -⟩ := Program.exists_run generated whole rfl rfl
  obtain ⟨tree, annotated, -, type, obeys⟩ := annotation_obeys_rules ran
  exact ⟨result, trace, tree, ran, annotated, type, obeys⟩

/-- The uses of the name of a recursive `let` have one type inside its value, and the type of the
value inside its body. -/
theorem recursive_uses_have_one_type {e : Program} {result : Inference} {trace : Trace}
    (ran : e.run true = .ok result trace) :
    ∃ tree, result.tree = some tree ∧ ∀ note name, ∀ value body : Annotated,
      Expr.letIn note name true value body ∈ tree.nodes →
        (∃ self, ∀ use ∈ value.loose, use.1 = name → use.2.2 = self) ∧
        ∀ use ∈ body.loose, use.1 = name → use.2.2 = value.type := by
  obtain ⟨g, m, S, generates, hS, unifies, generic, annotated, -⟩ := exists_generic_tree ran
  refine ⟨_, annotated, fun note name value body node => ?_⟩
  exact (generates.obeys (.nil 0) hS unifies generic _ node).2

theorem recursive_uses_have_one_type_twice :
    ∃ result trace note, ∃ value body : Annotated,
      Program.run true (.letIn none "f" true (.func none "x" (.cond none (.ident none "x")
        (.call none (.ident none "f") (.int none 1)) (.call none (.ident none "f") (.int none 2))))
        (.ident none "f")) = .ok result trace ∧
      result.tree = some (.letIn note "f" true value body) ∧
      (∃ self, ∀ use ∈ value.loose, use.1 = "f" → use.2.2 = self) ∧
      ∀ use ∈ body.loose, use.1 = "f" → use.2.2 = value.type := by
  have solves : Unify.solve [⟨.var "a", .arrow .int (.var "d"), none⟩,
      ⟨.var "a", .arrow .int (.var "e"), none⟩, ⟨.var "b", .bool, none⟩,
      ⟨.var "d", .var "e", none⟩, ⟨.var "d", .var "c", none⟩] =
      .ok ⟨[("e", .var "c"), ("b", .bool), ("d", .var "c"), ("a", .arrow .int (.var "c"))], 2⟩ := by
    cbv
  have generated : generate [] (.letIn none "f" true (.func none "x"
      (.cond none (.ident none "x") (.call none (.ident none "f") (.int none 1))
        (.call none (.ident none "f") (.int none 2)))) (.ident none "f")) {} = .ok _ _ :=
    generate_letIn rfl rfl solves rfl rfl
  obtain ⟨result, trace, ran, found⟩ := Program.exists_run generated solves rfl rfl
  obtain ⟨tree, same, uses⟩ := recursive_uses_have_one_type ran
  cases found.symm.trans same
  exact ⟨result, trace, _, _, _, ran, found, uses _ _ _ _ List.mem_cons_self⟩

theorem recursive_use_differs :
    ∃ result trace note, ∃ value body : Annotated, ∃ use,
      Program.run true (.letIn none "f" true
        (.func none "x" (.call none (.ident none "f") (.int none 1))) (.ident none "f")) =
          .ok result trace ∧
      result.tree = some (.letIn note "f" true value body) ∧
      use ∈ value.loose ∧ use.1 = "f" ∧ use.2.2 ≠ value.type := by
  have solves : Unify.solve [⟨.var "a", .arrow .int (.var "d"), none⟩, ⟨.var "d", .var "c", none⟩] =
      .ok ⟨[("d", .var "c"), ("a", .arrow .int (.var "c"))], 2⟩ := by cbv
  have generated : generate [] (.letIn none "f" true
      (.func none "x" (.call none (.ident none "f") (.int none 1))) (.ident none "f")) {} =
      .ok _ _ :=
    generate_letIn rfl rfl solves rfl rfl
  obtain ⟨result, trace, ran, found⟩ := Program.exists_run generated solves rfl rfl
  exact ⟨result, trace, _, _, _, ("f", none, .arrow .int (.var "c")), ran, found,
    by decide, rfl, by decide⟩

end HindleyMilner

import HindleyMilner.Infer.Run
import HindleyMilner.Proofs.Lockstep
import HindleyMilner.Proofs.Scheme

/-!
Inference sees which binder a name belongs to, not how the name is written. Two programs are alike
up to bound names if the same binder stands behind every pair of uses; renaming may turn shadowing
on or off. Their environments then hold the same types, binding by binding, under different names:
a lookup finds the same type, and generalization, which counts shadowed bindings too, leaves the
same placeholders open. So both programs are inferred in step.
-/

namespace HindleyMilner

/-- Two uses that belong together: to one pair of binders, neither of them shadowed, or to none, and
then they are the same free name. -/
def Linked : List (Text × Text) → Text → Text → Prop
  | [], x, y => x = y
  | (a, b) :: scope, x, y => x = a ∧ y = b ∨ x ≠ a ∧ y ≠ b ∧ Linked scope x y

instance decidableLinked : ∀ scope x y, Decidable (Linked scope x y)
  | [], x, y => inferInstanceAs (Decidable (x = y))
  | (a, b) :: scope, x, y =>
      have := decidableLinked scope x y
      inferInstanceAs (Decidable (x = a ∧ y = b ∨ x ≠ a ∧ y ≠ b ∧ Linked scope x y))

-- `fun x -> fun y -> x` must not become `fun x -> fun x -> x`.
example : ¬Linked [("y", "x"), ("x", "x")] "x" "x" := by decide

/-- The same expression up to notes and the names of binders. The binders around are listed in
pairs, innermost first. -/
inductive Expr.AlphaEquiv {ν μ : Type} : List (Text × Text) → Expr ν → Expr μ → Prop
  | int {scope note note'} (value) : AlphaEquiv scope (.int note value) (.int note' value)
  | bool {scope note note'} (value) : AlphaEquiv scope (.bool note value) (.bool note' value)
  | str {scope note note'} (value) : AlphaEquiv scope (.str note value) (.str note' value)
  | ident {scope note note' x y} : Linked scope x y →
      AlphaEquiv scope (.ident note x) (.ident note' y)
  | func {scope note note' x y body body'} : AlphaEquiv ((x, y) :: scope) body body' →
      AlphaEquiv scope (.func note x body) (.func note' y body')
  | not {scope note note' operand operand'} : AlphaEquiv scope operand operand' →
      AlphaEquiv scope (.not note operand) (.not note' operand')
  | binary {scope note note' left left' right right'} (op) : AlphaEquiv scope left left' →
      AlphaEquiv scope right right' →
      AlphaEquiv scope (.binary note op left right) (.binary note' op left' right')
  | cond {scope note note' test test' yes yes' no no'} : AlphaEquiv scope test test' →
      AlphaEquiv scope yes yes' → AlphaEquiv scope no no' →
      AlphaEquiv scope (.cond note test yes no) (.cond note' test' yes' no')
  | call {scope note note' callee callee' argument argument'} : AlphaEquiv scope callee callee' →
      AlphaEquiv scope argument argument' →
      AlphaEquiv scope (.call note callee argument) (.call note' callee' argument')
  | letIn {scope note note' x y value value' body body'} (recursive : Bool) :
      AlphaEquiv (if recursive then (x, y) :: scope else scope) value value' →
      AlphaEquiv ((x, y) :: scope) body body' →
      AlphaEquiv scope (.letIn note x recursive value body) (.letIn note' y recursive value' body')

namespace Env

/-- The same types in the same order, under the names of paired binders. -/
inductive Parallel : List (Text × Text) → Env → Env → Prop
  | nil : Parallel [] [] []
  | extend {scope env env'} (x y : Text) (t : Ty) : Parallel scope env env' →
      Parallel ((x, y) :: scope) (env.extend x t) (env'.extend y t)

variable {scope : List (Text × Text)} {env env' : Env}

theorem Parallel.get? (parallel : Parallel scope env env') {x y : Text}
    (linked : Linked scope x y) :
    env.get? x = env'.get? y ∧ (env.get? x = none → x = y) := by
  induction parallel with
  | nil => exact ⟨rfl, fun _ => linked⟩
  | extend a b t parallel ih =>
      obtain ⟨rfl, rfl⟩ | ⟨other, other', linked⟩ := linked
      · simp [get?_extend_self]
      · rw [get?_extend_ne other, get?_extend_ne other']
        exact ih linked

theorem Parallel.types (parallel : Parallel scope env env') :
    List.Forall₂ (fun binding binding' => binding.2 = binding'.2) env env' := by
  induction parallel with
  | nil => exact .nil
  | extend _ _ _ _ ih => exact .cons rfl ih

theorem generalize_congr
    (types : List.Forall₂ (fun binding binding' => binding.2 = binding'.2) env env') (t : Ty) :
    env.generalize t = env'.generalize t := by
  have open' : (env.flatMap fun binding => binding.2.free) =
      env'.flatMap fun binding => binding.2.free := by
    induction types with
    | nil => rfl
    | cons same _ ih => rw [List.flatMap_cons, List.flatMap_cons, same, ih]
  rw [generalize, generalize, free, free, open']

theorem agree_refine
    (types : List.Forall₂ (fun binding binding' => binding.2 = binding'.2) env env') (s : Subst) :
    Agree (List.Forall₂ fun binding binding' => binding.2 = binding'.2) (env.refine s)
      (env'.refine s) := by
  refine Agree.mapM types fun binding binding' same => ?_
  rw [same]
  exact (Agree.refl (s.apply binding'.2)).bind fun _ _ same => .ok same

end Env

theorem agree_letScheme {scope : List (Text × Text)} {env env' : Env}
    (parallel : env.Parallel scope env') (recursive : Bool) (s : Subst) (t : Ty) :
    Agree Eq (letScheme env recursive s t) (letScheme env' recursive s t) := by
  refine (Env.agree_refine parallel.types s).bind fun refined refined' types => ?_
  refine (Agree.refl (s.apply t)).bind fun solved _ same => ?_
  subst same
  exact .ok (by rw [Env.generalize_congr types])

theorem lockstep_letScope {scope : List (Text × Text)} {env env' : Env}
    (parallel : env.Parallel scope env') (recursive : Bool) (x y : Text) :
    Infer.Lockstep (Env.Parallel (if recursive then (x, y) :: scope else scope))
      (letScope env recursive x) (letScope env' recursive y) := by
  cases recursive with
  | false => exact .pure parallel
  | true =>
      refine Infer.lockstep_fresh.bind fun self _ same => ?_
      subst same
      exact .pure (.extend x y self parallel)

structure Generated.Alike (g g' : Generated) : Prop where
  types : g.tree.types = g'.tree.types
  constraints : SameEquations g.constraints g'.constraints

theorem Annotated.head?_types (tree : Annotated) : tree.types.head? = some tree.type := by
  cases tree <;> rfl

theorem Generated.Alike.type {g g' : Generated} (h : g.Alike g') : g.type = g'.type := by
  have heads := congrArg List.head? h.types
  rw [Annotated.head?_types, Annotated.head?_types] at heads
  exact Option.some.inj heads

theorem sameEquations_typing (op : Operator) (place place' : Option Location) (left right : Ty) :
    (op.typing place left right).1 = (op.typing place' left right).1 ∧
    SameEquations (op.typing place left right).2 (op.typing place' left right).2 := by
  unfold Operator.typing
  split
  · exact ⟨rfl, .cons rfl rfl .nil⟩
  · exact ⟨rfl, .cons rfl rfl (.cons rfl rfl .nil)⟩

theorem Expr.AlphaEquiv.lockstep_generate {scope : List (Text × Text)} {e e' : Program}
    (h : AlphaEquiv scope e e') {env env' : Env} (parallel : env.Parallel scope env') :
    Infer.Lockstep Generated.Alike (generate env e) (generate env' e') := by
  induction h generalizing env env' with
  | int | bool | str => exact .pure ⟨rfl, .nil⟩
  | @ident _ place place' x y linked =>
      obtain ⟨found, free⟩ := parallel.get? linked
      rw [generate, generate, ← found]
      cases lookup : env.get? x with
      | none => exact .throw (by rw [free lookup]; rfl)
      | some scheme =>
          refine (Infer.lockstep_instantiate scheme).bind fun t _ same => ?_
          subst same
          exact .pure ⟨rfl, .nil⟩
  | @func _ place place' x y body body' _ ih =>
      rw [generate, generate]
      refine Infer.lockstep_fresh.bind fun domain _ same => ?_
      subst same
      refine Infer.lockstep_fresh.bind fun codomain _ same => ?_
      subst same
      refine (ih (.extend x y domain parallel)).bind fun g g' body => .pure ⟨?_, ?_⟩
      · exact congrArg (_ :: ·) body.types
      · exact body.constraints.append (.cons body.type rfl .nil)
  | not _ ih =>
      rw [generate, generate]
      refine (ih parallel).bind fun g g' operand => .pure ⟨?_, ?_⟩
      · exact congrArg (_ :: ·) operand.types
      · exact operand.constraints.append (.cons operand.type rfl .nil)
  | @binary _ place place' _ _ _ _ op _ _ ihl ihr =>
      rw [generate, generate]
      refine (ihl parallel).bind fun l l' left => (ihr parallel).bind fun r r' right => ?_
      have typing := sameEquations_typing op place place' l.type r.type
      rw [← left.type, ← right.type]
      refine .pure ⟨?_, (left.constraints.append right.constraints).append typing.2⟩
      simp only [Annotated.types, Expr.notes, List.map_cons, List.map_append]
      exact congrArg₂ _ typing.1 (congrArg₂ _ left.types right.types)
  | cond _ _ _ iht ihy ihn =>
      rw [generate, generate]
      refine (iht parallel).bind fun t t' test => (ihy parallel).bind fun y y' yes =>
        (ihn parallel).bind fun n n' no => .pure ⟨?_, ?_⟩
      · simp only [Annotated.types, Expr.notes, List.map_cons, List.map_append]
        exact congrArg₂ _ yes.type (congrArg₂ _ (congrArg₂ _ test.types yes.types) no.types)
      · exact ((test.constraints.append yes.constraints).append no.constraints).append
          (.cons test.type rfl (.cons yes.type no.type .nil))
  | call _ _ ihc iha =>
      rw [generate, generate]
      refine (ihc parallel).bind fun c c' callee => (iha parallel).bind fun a a' argument => ?_
      refine Infer.lockstep_fresh.bind fun result _ same => ?_
      subst same
      refine .pure ⟨?_, ?_⟩
      · simp only [Annotated.types, Expr.notes, List.map_cons, List.map_append]
        exact congrArg₂ _ rfl (congrArg₂ _ callee.types argument.types)
      · refine (callee.constraints.append argument.constraints).append (.cons callee.type ?_ .nil)
        exact congrArg (Ty.arrow · result) argument.type
  | @letIn _ place place' x y _ _ _ _ recursive _ _ ihv ihb =>
      rw [generate, generate]
      refine (lockstep_letScope parallel recursive x y).bind fun inner inner' inside => ?_
      refine (ihv inside).bind fun v v' value => ?_
      refine (Infer.lockstep_solve value.constraints).bind fun s _ same => ?_
      subst same
      rw [← value.type]
      refine (Infer.lockstep_lift (agree_letScheme parallel recursive s v.type)).bind
        fun scheme _ same => ?_
      subst same
      refine (Infer.lockstep_note _ _).bind fun _ _ _ => ?_
      refine (ihb (.extend x y scheme parallel)).bind fun b b' body => .pure ⟨?_, ?_⟩
      · simp only [Annotated.types, Expr.notes, List.map_cons, List.map_append]
        exact congrArg₂ _ body.type (congrArg₂ _ value.types body.types)
      · exact value.constraints.append body.constraints

theorem Expr.notes_mapM {ν μ : Type} (f : ν → Except Fault μ) (e : Expr ν) :
    notes <$> e.mapM f = e.notes.mapM f := by
  induction e with
  | int | bool | str | ident => simp [mapM, notes]
  | func note parameter body ih | not note body ih => simp [mapM, notes, ← ih]
  | binary note op left right ihl ihr | call note left right ihl ihr
  | letIn note op recursive left right ihl ihr => simp [mapM, notes, ← ihl, ← ihr]
  | cond note test yes no iht ihy ihn => simp [mapM, notes, ← iht, ← ihy, ← ihn]

theorem Annotated.types_resolve (tree : Annotated) (s : Subst) :
    types <$> tree.resolve s = tree.types.mapM s.apply := by
  have through : types <$> tree.resolve s = List.map Prod.snd <$> (Expr.notes <$> tree.resolve s) :=
    (Functor.map_map Expr.notes (List.map Prod.snd) (tree.resolve s)).symm
  rw [through, resolve, Expr.notes_mapM, types]
  induction tree.notes with
  | nil => rfl
  | cons note notes ih => simp [← ih]

theorem agree_resolve {tree tree' : Annotated} (types : tree.types = tree'.types) (s : Subst) :
    Agree (fun tree tree' => tree.types = tree'.types) (tree.resolve s) (tree'.resolve s) :=
  .of_map_eq (by rw [Annotated.types_resolve, Annotated.types_resolve, types])

structure Inference.Alike (r r' : Inference) : Prop where
  type : r.type = r'.type
  subst : r.subst = r'.subst
  constraints : SameEquations r.constraints r'.constraints
  types : r.tree.map Annotated.types = r'.tree.map Annotated.types

/-- Inference depends on binding structure only: programs that are the same up to the names of
binders and up to places have the same inference, or fail for the same reason, after as many
placeholders. -/
theorem run_of_alphaEquiv {e e' : Program} (h : Expr.AlphaEquiv [] e e') (annotate : Bool) :
    Infer.Ends Inference.Alike (e.run annotate) (e'.run annotate) := by
  refine Infer.Lockstep.bind (h.lockstep_generate .nil) (fun g g' generated => ?_) {} {} rfl
  refine (Infer.lockstep_note _ _).bind fun _ _ _ => ?_
  refine (Infer.lockstep_solve generated.constraints).bind fun s _ same => ?_
  subst same
  refine Infer.lockstep_get.bind fun _ _ _ => ?_
  refine (Infer.lockstep_note _ _).bind fun _ _ _ => (Infer.lockstep_note _ _).bind fun _ _ _ => ?_
  have finish : ∀ tree tree' : Option Annotated,
      tree.map Annotated.types = tree'.map Annotated.types →
      Infer.Lockstep Inference.Alike
        (do return ⟨← Infer.lift (s.apply g.type), s, g.constraints, tree⟩)
        (do return ⟨← Infer.lift (s.apply g'.type), s, g'.constraints, tree'⟩) := by
    intro tree tree' types
    rw [← generated.type]
    refine (Infer.lockstep_lift (.refl (s.apply g.type))).bind fun type _ same => ?_
    exact .pure ⟨same, rfl, generated.constraints, types⟩
  cases annotate with
  | false =>
      refine Infer.Lockstep.bind ?_ finish
      exact .pure rfl
  | true =>
      refine Infer.Lockstep.bind ?_ finish
      exact (Infer.lockstep_lift (agree_resolve generated.types s)).map fun _ _ => congrArg some

/-- Here `fun x -> let x = x in x` shadows, and `fun y -> let z = y in z` does not. -/
theorem run_of_alphaEquiv_shadowing :
    Expr.AlphaEquiv []
      (.func none "x" (.letIn none "x" false (.ident none "x") (.ident none "x")) : Program)
      (.func (some ⟨.number 1, .number 1, 0, none⟩) "y"
        (.letIn none "z" false (.ident none "y") (.ident none "z")) : Program) ∧
    Infer.Ends Inference.Alike
      (Program.run true
        (.func none "x" (.letIn none "x" false (.ident none "x") (.ident none "x"))))
      (Program.run true
        (.func (some ⟨.number 1, .number 1, 0, none⟩) "y"
          (.letIn none "z" false (.ident none "y") (.ident none "z")))) := by
  have alike : Expr.AlphaEquiv []
      (.func none "x" (.letIn none "x" false (.ident none "x") (.ident none "x")) : Program)
      (.func (some ⟨.number 1, .number 1, 0, none⟩) "y"
        (.letIn none "z" false (.ident none "y") (.ident none "z")) : Program) :=
    .func (.letIn false (.ident (by decide)) (.ident (by decide)))
  exact ⟨alike, run_of_alphaEquiv alike true⟩

end HindleyMilner

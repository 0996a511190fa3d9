import HindleyMilner.Proofs.Generates
import HindleyMilner.Proofs.Solve
import Mathlib.Data.List.Permutation

/-!
Where the placeholders of generated types and equations come from. Each is either handed out by
the supply during generation, or free in the type that the environment gives to an identifier that
occurs free in the expression. No quantified type gets into them.
-/

namespace HindleyMilner

namespace Expr

variable {ν : Type}

/-- The occurrences of identifiers that no binder of the expression binds, from left to right,
with their notes. -/
def loose : Expr ν → List (Text × ν)
  | int .. | bool .. | str .. => []
  | ident note name => [(name, note)]
  | func _ parameter body => body.loose.filter (·.1 ≠ parameter)
  | not _ operand => operand.loose
  | binary _ _ left right => left.loose ++ right.loose
  | cond _ test yes no => test.loose ++ yes.loose ++ no.loose
  | call _ callee argument => callee.loose ++ argument.loose
  | letIn _ name recursive value body =>
      (if recursive then value.loose.filter (·.1 ≠ name) else value.loose) ++
        body.loose.filter (·.1 ≠ name)

def freeNames (e : Expr ν) : List Text :=
  e.loose.map Prod.fst

theorem mem_freeNames {e : Expr ν} {x : Text} :
    x ∈ e.freeNames ↔ ∃ note, (x, note) ∈ e.loose := by
  simp [freeNames]

theorem freeNames_ident (note : ν) (name : Text) : (ident note name).freeNames = [name] := rfl

theorem freeNames_not (note : ν) (operand : Expr ν) :
    (not note operand).freeNames = operand.freeNames := rfl

theorem freeNames_binary (note : ν) (op : Operator) (left right : Expr ν) :
    (binary note op left right).freeNames = left.freeNames ++ right.freeNames :=
  List.map_append

theorem freeNames_cond (note : ν) (test yes no : Expr ν) :
    (cond note test yes no).freeNames = test.freeNames ++ yes.freeNames ++ no.freeNames := by
  simp [freeNames, loose]

theorem freeNames_call (note : ν) (callee argument : Expr ν) :
    (call note callee argument).freeNames = callee.freeNames ++ argument.freeNames :=
  List.map_append

theorem mem_freeNames_func {note : ν} {parameter x : Text} {body : Expr ν} :
    x ∈ (func note parameter body).freeNames ↔ x ∈ body.freeNames ∧ x ≠ parameter := by
  simp [mem_freeNames, loose]

theorem mem_freeNames_letIn {note : ν} {name x : Text} {recursive : Bool} {value body : Expr ν} :
    x ∈ (letIn note name recursive value body).freeNames ↔
      x ∈ value.freeNames ∧ (recursive → x ≠ name) ∨ x ∈ body.freeNames ∧ x ≠ name := by
  cases recursive <;> simp [mem_freeNames, loose, exists_or]

end Expr

namespace Env

variable {ν : Type}

/-- The environment gives a free identifier of `e` a type in which `x` is free. -/
def Shows (env : Env) (e : Expr ν) (x : String) : Prop :=
  ∃ y ∈ e.freeNames, ∃ t, env.get? y = some t ∧ x ∈ t.occurrences

theorem Shows.mem_free {env : Env} {e : Expr ν} {x : String} (h : env.Shows e x) :
    x ∈ env.free := by
  obtain ⟨y, -, t, found, hx⟩ := h
  exact Env.mem_free.2 ⟨(y, t), mem_of_get? found, hx⟩

/-- All types are schemes, and no name of them is still to come from the supply. -/
structure Plain (n : Nat) (env : Env) : Prop where
  scheme : ∀ binding ∈ env, binding.2.Scheme
  known : ∀ binding ∈ env, ∀ x,
    x ∈ binding.2.core.occurrences ∨ x ∈ binding.2.quantified → ¬ Supply.Ahead n x

theorem Plain.nil (n : Nat) : Plain n [] :=
  ⟨by simp, by simp⟩

theorem Plain.later {n m : Nat} {env : Env} (h : Plain n env) (le : n ≤ m) : Plain m env :=
  ⟨h.scheme, fun binding hb x hx ahead => h.known binding hb x hx (ahead.earlier le)⟩

theorem Plain.extend {n : Nat} {env : Env} (h : Plain n env) {name : Text} {t : Ty}
    (scheme : t.Scheme)
    (known : ∀ x, x ∈ t.core.occurrences ∨ x ∈ t.quantified → ¬ Supply.Ahead n x) :
    Plain n (env.extend name t) := by
  constructor
  · intro binding hb
    cases List.mem_cons.1 hb with
    | inl equal =>
        subst equal
        exact scheme
    | inr mem => exact h.scheme binding mem
  · intro binding hb x hx
    cases List.mem_cons.1 hb with
    | inl equal =>
        subst equal
        exact known x hx
    | inr mem => exact h.known binding mem x hx

theorem Plain.extend_mono {n : Nat} {env : Env} (h : Plain n env) {name : Text} {t : Ty}
    (mono : t.Mono) (known : ∀ x ∈ t.occurrences, ¬ Supply.Ahead n x) :
    Plain n (env.extend name t) := by
  refine h.extend mono.scheme fun x hx => ?_
  rw [mono.core_eq, mono.quantified_eq] at hx
  exact known x (by simpa using hx)

theorem Plain.free_known {n : Nat} {env : Env} (h : Plain n env) {x : String}
    (hx : x ∈ env.free) : ¬ Supply.Ahead n x := by
  obtain ⟨binding, hb, occurs⟩ := Env.mem_free.1 hx
  exact h.known binding hb x (.inl (Ty.mem_occurrences.1 occurs).1)

end Env

/-- `x` is shown by the environment or handed out by the supply between `n` and `m`. -/
def Drawn (env : Env) (e : Program) (n m : Nat) (x : String) : Prop :=
  env.Shows e x ∨ Supply.Within n m x

def DrawnType (env : Env) (e : Program) (n m : Nat) (t : Ty) : Prop :=
  t.Mono ∧ ∀ x ∈ t.occurrences, Drawn env e n m x

section

variable {env : Env} {e e' : Program} {n m n' m' : Nat}

theorem Drawn.widen {x : String} (h : Drawn env e n m x) (names : e.freeNames ⊆ e'.freeNames)
    (hn : n' ≤ n) (hm : m ≤ m') : Drawn env e' n' m' x := by
  cases h with
  | inl shown =>
      obtain ⟨y, hy, found⟩ := shown
      exact .inl ⟨y, names hy, found⟩
  | inr within => exact .inr (within.widen hn hm)

theorem Drawn.unbind {name : Text} {x : String} {t : Ty} (h : Drawn (env.extend name t) e n m x)
    (names : ∀ y ∈ e.freeNames, y ≠ name → y ∈ e'.freeNames) (hn : n' ≤ n) (hm : m ≤ m') :
    x ∈ t.occurrences ∨ Drawn env e' n' m' x := by
  cases h with
  | inl shown =>
      obtain ⟨y, hy, u, found, hx⟩ := shown
      by_cases same : y = name
      · rw [same, Env.get?_extend_self] at found
        cases found
        exact .inl hx
      · rw [Env.get?_extend_ne same] at found
        exact .inr (.inl ⟨y, names y hy same, u, found, hx⟩)
  | inr within => exact .inr (.inr (within.widen hn hm))

theorem Drawn.not_ahead {x : String} (h : Drawn env e n m x) (plain : env.Plain n)
    (le : n ≤ m) : ¬ Supply.Ahead m x := by
  cases h with
  | inl shown => exact fun ahead => plain.free_known shown.mem_free (ahead.earlier le)
  | inr within => exact within.not_ahead

theorem drawnType_prim (p : String) : DrawnType env e n m (.prim p) :=
  ⟨trivial, by simp [Ty.occurrences]⟩

theorem drawnType_placeholder {i : Nat} (hn : n ≤ i) (hm : i < m) :
    DrawnType env e n m (Supply.placeholder i) := by
  refine ⟨trivial, fun x hx => .inr ?_⟩
  have equal : x = Supply.name i := by simpa [Supply.placeholder, Ty.occurrences] using hx
  rw [equal, Supply.name_within]
  exact ⟨hn, hm⟩

theorem DrawnType.arrow {d c : Ty} (hd : DrawnType env e n m d) (hc : DrawnType env e n m c) :
    DrawnType env e n m (.arrow d c) := by
  refine ⟨⟨hd.1, hc.1⟩, fun x hx => ?_⟩
  simp only [Ty.occurrences, List.mem_append] at hx
  exact hx.elim (hd.2 x) (hc.2 x)

theorem DrawnType.widen {t : Ty} (h : DrawnType env e n m t)
    (names : e.freeNames ⊆ e'.freeNames) (hn : n' ≤ n) (hm : m ≤ m') :
    DrawnType env e' n' m' t :=
  ⟨h.1, fun x hx => (h.2 x hx).widen names hn hm⟩

theorem DrawnType.unbind {name : Text} {u t : Ty} (h : DrawnType (env.extend name u) e n m t)
    (names : ∀ y ∈ e.freeNames, y ≠ name → y ∈ e'.freeNames) (hn : n' ≤ n) (hm : m ≤ m')
    (binder : ∀ x ∈ u.occurrences, Drawn env e' n' m' x) : DrawnType env e' n' m' t := by
  refine ⟨h.1, fun x hx => ?_⟩
  cases (h.2 x hx).unbind names hn hm with
  | inl bound => exact binder x bound
  | inr drawn => exact drawn

end

theorem drawn_typing {env : Env} {e : Program} {n m : Nat} {l r : Ty}
    (op : Operator) (place : Option Location) (hl : DrawnType env e n m l)
    (hr : DrawnType env e n m r) :
    DrawnType env e n m (op.typing place l r).1 ∧
      ∀ c ∈ (op.typing place l r).2, DrawnType env e n m c.left ∧ DrawnType env e n m c.right := by
  cases op <;>
    simp [Operator.typing, Operator.category, Operator.Category.operand?, hl, hr, drawnType_prim,
      Ty.int, Ty.bool, Ty.string]

/-- All types and equations of a generation are drawn between its counters. -/
structure Bounded (env : Env) (n : Nat) (e : Program) (g : Generated) (m : Nat) : Prop where
  le : n ≤ m
  types : ∀ t ∈ g.tree.types, DrawnType env e n m t
  constraints : ∀ c ∈ g.constraints, DrawnType env e n m c.left ∧ DrawnType env e n m c.right

namespace Bounded

variable {env : Env} {e e' : Program} {n m n' m' : Nat} {g : Generated}

theorem type (h : Bounded env n e g m) : DrawnType env e n m g.type :=
  h.types g.type g.tree.type_mem_types

theorem widen (h : Bounded env n e g m) (names : e.freeNames ⊆ e'.freeNames) (hn : n' ≤ n)
    (hm : m ≤ m') : Bounded env n' e' g m' :=
  ⟨Nat.le_trans hn (Nat.le_trans h.le hm), fun t ht => (h.types t ht).widen names hn hm,
    fun c hc => ⟨(h.constraints c hc).1.widen names hn hm,
      (h.constraints c hc).2.widen names hn hm⟩⟩

theorem unbind {name : Text} {u : Ty} (h : Bounded (env.extend name u) n e g m)
    (names : ∀ y ∈ e.freeNames, y ≠ name → y ∈ e'.freeNames) (hn : n' ≤ n) (hm : m ≤ m')
    (binder : ∀ x ∈ u.occurrences, Drawn env e' n' m' x) : Bounded env n' e' g m' :=
  ⟨Nat.le_trans hn (Nat.le_trans h.le hm), fun t ht => (h.types t ht).unbind names hn hm binder,
    fun c hc => ⟨(h.constraints c hc).1.unbind names hn hm binder,
      (h.constraints c hc).2.unbind names hn hm binder⟩⟩

theorem mono (h : Bounded env n e g m) : ∀ c ∈ g.constraints, c.Mono :=
  fun c hc => ⟨(h.constraints c hc).1.1, (h.constraints c hc).2.1⟩

theorem mem_occurrences (h : Bounded env n e g m) {x : String}
    (hx : x ∈ Unify.occurrences g.constraints) : Drawn env e n m x := by
  obtain ⟨c, hc, occurs⟩ := List.mem_flatMap.1 hx
  rw [Constraint.occurrences, List.mem_append] at occurs
  exact occurs.elim ((h.constraints c hc).1.2 x) ((h.constraints c hc).2.2 x)

theorem solved (h : Bounded env n e g m) {s : Subst} (general : Unify.MostGeneral s g.constraints)
    {t : Ty} (drawn : DrawnType env e n m t) : DrawnType env e n m (t.assign s.value) := by
  refine ⟨drawn.1.assign fun x _ => general.solved.value_mono x, fun y hy => ?_⟩
  obtain ⟨x, hx, hy⟩ := (Ty.mem_occurrences_assign drawn.1).1 hy
  cases general.support x y hy with
  | inl same => exact same ▸ drawn.2 x hx
  | inr inside => exact h.mem_occurrences inside

theorem congr (h : Bounded env n e g m) {θ η : Assignment}
    (same : ∀ x, Drawn env e n m x → η x = θ x) :
    (Unifies η g.constraints ↔ Unifies θ g.constraints) ∧ g.type.assign η = g.type.assign θ := by
  have sides : ∀ c ∈ g.constraints,
      c.left.assign η = c.left.assign θ ∧ c.right.assign η = c.right.assign θ := fun c hc =>
    ⟨Ty.assign_congr fun x hx => same x ((h.constraints c hc).1.2 x hx),
      Ty.assign_congr fun x hx => same x ((h.constraints c hc).2.2 x hx)⟩
  refine ⟨forall₂_congr fun c hc => ?_, Ty.assign_congr fun x hx => same x (h.type.2 x hx)⟩
  rw [(sides c hc).1, (sides c hc).2]

theorem undisturbed (h : Bounded env n e g m) {start a b : Nat} (plain : env.Plain start)
    (le : start ≤ a) (apart : m ≤ a ∨ b ≤ n) {θ η : Assignment}
    (agree : ∀ x, ¬ Supply.Within a b x → η x = θ x) :
    (Unifies η g.constraints ↔ Unifies θ g.constraints) ∧ g.type.assign η = g.type.assign θ := by
  refine h.congr fun x drawn => agree x fun within => ?_
  cases drawn with
  | inl shown => exact plain.free_known shown.mem_free (within.ahead.earlier le)
  | inr own =>
      cases apart with
      | inl before => exact own.disjoint before within
      | inr after => exact within.disjoint after own

theorem undisturbed_binder {name : Text} {t : Ty} {start : Nat}
    (h : Bounded (env.extend name t) n e g m) (plain : env.Plain start) {θ η : Assignment}
    (binder : ∀ x ∈ t.occurrences, η x = θ x)
    (agree : ∀ x, ¬ Supply.Within start n x → η x = θ x) :
    (Unifies η g.constraints ↔ Unifies θ g.constraints) ∧ g.type.assign η = g.type.assign θ := by
  refine h.congr fun x drawn => ?_
  cases drawn with
  | inl shown =>
      cases Env.mem_free_extend.1 shown.mem_free with
      | inl occurs => exact binder x occurs
      | inr free => exact agree x fun within => plain.free_known free within.ahead
  | inr own => exact agree x fun within => within.disjoint (Nat.le_refl n) own

section

variable {k j : Nat} {place : Option Location} {name : Text}

theorem func {body : Program}
    (h : Bounded (env.extend name (Supply.placeholder n)) (n + 2) body g m) :
    Bounded env n (.func place name body)
      ⟨.func (place, .arrow (Supply.placeholder n) (Supply.placeholder (n + 1))) name g.tree,
        g.constraints ++ [⟨g.type, Supply.placeholder (n + 1), place⟩]⟩ m := by
  have le := h.le
  have domain : DrawnType env (.func place name body) n m (Supply.placeholder n) :=
    drawnType_placeholder (by omega) (by omega)
  have codomain : DrawnType env (.func place name body) n m (Supply.placeholder (n + 1)) :=
    drawnType_placeholder (by omega) (by omega)
  have outer : Bounded env n (.func place name body) g m :=
    h.unbind (fun y hy other => Expr.mem_freeNames_func.2 ⟨hy, other⟩) (by omega) (Nat.le_refl m)
      domain.2
  refine ⟨outer.le, ?_, ?_⟩
  · simp only [Annotated.types, Expr.notes, List.map_cons, List.forall_mem_cons]
    exact ⟨domain.arrow codomain, outer.types⟩
  · simp only [List.forall_mem_append, List.forall_mem_singleton]
    exact ⟨outer.constraints, outer.type, codomain⟩

theorem not {operand : Program} (h : Bounded env n operand g m) :
    Bounded env n (.not place operand)
      ⟨.not (place, .bool) g.tree, g.constraints ++ [⟨g.type, .bool, place⟩]⟩ m := by
  have outer : Bounded env n (.not place operand) g m :=
    h.widen (by simp [Expr.freeNames, Expr.loose]) (Nat.le_refl n) (Nat.le_refl m)
  refine ⟨outer.le, ?_, ?_⟩
  · simp only [Annotated.types, Expr.notes, List.map_cons, List.forall_mem_cons]
    exact ⟨drawnType_prim _, outer.types⟩
  · simp only [List.forall_mem_append, List.forall_mem_singleton]
    exact ⟨outer.constraints, outer.type, drawnType_prim _⟩

theorem binary {op : Operator} {left right : Program} {l r : Generated}
    (hl : Bounded env n left l k) (hr : Bounded env k right r m) :
    Bounded env n (.binary place op left right)
      ⟨.binary (place, (op.typing place l.type r.type).1) op l.tree r.tree,
        l.constraints ++ r.constraints ++ (op.typing place l.type r.type).2⟩ m := by
  have outerLeft : Bounded env n (.binary place op left right) l m :=
    hl.widen (by simp [Expr.freeNames, Expr.loose]) (Nat.le_refl n) hr.le
  have outerRight : Bounded env n (.binary place op left right) r m :=
    hr.widen (by simp [Expr.freeNames, Expr.loose]) hl.le (Nat.le_refl m)
  have own := drawn_typing op place outerLeft.type outerRight.type
  refine ⟨outerLeft.le, ?_, ?_⟩
  · simp only [Annotated.types, Expr.notes, List.map_cons, List.map_append,
      List.forall_mem_cons, List.forall_mem_append]
    exact ⟨own.1, outerLeft.types, outerRight.types⟩
  · simp only [List.forall_mem_append]
    exact ⟨⟨outerLeft.constraints, outerRight.constraints⟩, own.2⟩

theorem cond {test yes no : Program} {c y z : Generated} (hc : Bounded env n test c j)
    (hy : Bounded env j yes y k) (hz : Bounded env k no z m) :
    Bounded env n (.cond place test yes no)
      ⟨.cond (place, y.type) c.tree y.tree z.tree, c.constraints ++ y.constraints ++
        z.constraints ++ [⟨c.type, .bool, place⟩, ⟨y.type, z.type, place⟩]⟩ m := by
  have outerTest : Bounded env n (.cond place test yes no) c m :=
    hc.widen (by simp [Expr.freeNames, Expr.loose]) (Nat.le_refl n) (Nat.le_trans hy.le hz.le)
  have outerYes : Bounded env n (.cond place test yes no) y m :=
    hy.widen (by simp [Expr.freeNames, Expr.loose]) hc.le hz.le
  have outerNo : Bounded env n (.cond place test yes no) z m :=
    hz.widen (by simp [Expr.freeNames, Expr.loose]) (Nat.le_trans hc.le hy.le) (Nat.le_refl m)
  refine ⟨outerTest.le, ?_, ?_⟩
  · simp only [Annotated.types, Expr.notes, List.map_cons, List.map_append,
      List.forall_mem_cons, List.forall_mem_append]
    exact ⟨outerYes.type, ⟨outerTest.types, outerYes.types⟩, outerNo.types⟩
  · simp only [List.forall_mem_append, List.forall_mem_cons, List.not_mem_nil,
      false_implies, implies_true, and_true]
    exact ⟨⟨⟨outerTest.constraints, outerYes.constraints⟩, outerNo.constraints⟩,
      ⟨outerTest.type, drawnType_prim _⟩, outerYes.type, outerNo.type⟩

theorem call {callee argument : Program} {f a : Generated} (hf : Bounded env n callee f k)
    (ha : Bounded env k argument a m) :
    Bounded env n (.call place callee argument)
      ⟨.call (place, Supply.placeholder m) f.tree a.tree, f.constraints ++ a.constraints ++
        [⟨f.type, .arrow a.type (Supply.placeholder m), place⟩]⟩ (m + 1) := by
  have result : DrawnType env (.call place callee argument) n (m + 1) (Supply.placeholder m) :=
    drawnType_placeholder (Nat.le_trans hf.le ha.le) (Nat.lt_succ_self m)
  have outerCallee : Bounded env n (.call place callee argument) f (m + 1) :=
    hf.widen (by simp [Expr.freeNames, Expr.loose]) (Nat.le_refl n) (Nat.le_succ_of_le ha.le)
  have outerArgument : Bounded env n (.call place callee argument) a (m + 1) :=
    ha.widen (by simp [Expr.freeNames, Expr.loose]) hf.le (Nat.le_succ m)
  refine ⟨outerCallee.le, ?_, ?_⟩
  · simp only [Annotated.types, Expr.notes, List.map_cons, List.map_append,
      List.forall_mem_cons, List.forall_mem_append]
    exact ⟨result, outerCallee.types, outerArgument.types⟩
  · simp only [List.forall_mem_append, List.forall_mem_singleton]
    exact ⟨⟨outerCallee.constraints, outerArgument.constraints⟩, outerCallee.type,
      outerArgument.type.arrow result⟩

theorem letIn {value body : Program} {v b : Generated} {recursive : Bool} {t : Ty}
    (hv : Bounded env n (.letIn place name recursive value body) v k)
    (hb : Bounded (env.extend name t) k body b m)
    (binder : ∀ x ∈ t.occurrences, Drawn env (.letIn place name recursive value body) n k x) :
    Bounded env n (.letIn place name recursive value body)
      ⟨.letIn (place, b.type) name recursive v.tree b.tree, v.constraints ++ b.constraints⟩ m := by
  have outerValue : Bounded env n (.letIn place name recursive value body) v m :=
    hv.widen (fun _ => id) (Nat.le_refl n) hb.le
  have outerBody : Bounded env n (.letIn place name recursive value body) b m :=
    hb.unbind (fun y hy other => Expr.mem_freeNames_letIn.2 (.inr ⟨hy, other⟩)) hv.le
      (Nat.le_refl m) fun x hx => (binder x hx).widen (fun _ => id) (Nat.le_refl n) hb.le
  refine ⟨outerValue.le, ?_, ?_⟩
  · simp only [Annotated.types, Expr.notes, List.map_cons, List.map_append,
      List.forall_mem_cons, List.forall_mem_append]
    exact ⟨outerBody.type, outerValue.types, outerBody.types⟩
  · simp only [List.forall_mem_append]
    exact ⟨outerValue.constraints, outerBody.constraints⟩

theorem plain {value body : Program} (h : Bounded env n value g m) :
    Bounded env n (.letIn place name false value body) g m :=
  h.widen (fun _ hy => Expr.mem_freeNames_letIn.2 (.inl ⟨hy, by simp⟩)) (Nat.le_refl n)
    (Nat.le_refl m)

theorem recursive {value body : Program}
    (h : Bounded (env.extend name (Supply.placeholder n)) (n + 1) value g m) :
    Bounded env n (.letIn place name true value body) g m :=
  h.unbind (fun _ hy other => Expr.mem_freeNames_letIn.2 (.inl ⟨hy, fun _ => other⟩))
    (Nat.le_succ n) (Nat.le_refl m) (drawnType_placeholder (Nat.le_refl n) h.le).2

end

end Bounded

theorem drawnType_instance {env : Env} {n : Nat} {place : Option Location} {name : Text}
    {scheme : Ty} (plain : env.Plain n) (found : env.get? name = some scheme) :
    DrawnType env (.ident place name) n (n + scheme.quantified.length)
      (scheme.core.assign (Ty.freshen n scheme.quantified)) := by
  have mono : scheme.core.Mono := plain.scheme _ (Env.mem_of_get? found)
  refine ⟨mono.assign fun x _ => Ty.freshen_mono n _ x, fun y hy => ?_⟩
  obtain ⟨x, hx, hy⟩ := (Ty.mem_occurrences_assign mono).1 hy
  by_cases bound : x ∈ scheme.quantified
  · obtain ⟨z, equal, within⟩ := Ty.freshen_of_mem (n := n) bound
    rw [equal, Ty.occurrences, List.mem_singleton] at hy
    exact .inr (hy ▸ within)
  · rw [Ty.freshen_of_notMem bound, Ty.occurrences, List.mem_singleton] at hy
    refine .inl ⟨name, by simp [Expr.freeNames, Expr.loose], scheme, found, ?_⟩
    rw [hy]
    exact Ty.mem_occurrences.2 ⟨hx, bound⟩

theorem Env.Plain.instanceAt {env : Env} {n : Nat} {name : Text} {scheme : Ty}
    (plain : env.Plain n) (found : env.get? name = some scheme) :
    Ty.instanceAt n scheme.quantified scheme.core =
      .ok (scheme.core.assign (Ty.freshen n scheme.quantified)) :=
  Ty.instanceAt_of_mono (plain.scheme _ (mem_of_get? found)) fun y hy =>
    plain.known _ (mem_of_get? found) y (.inr hy)

theorem Env.Plain.parameter {env : Env} {n m : Nat} (plain : env.Plain n) (name : Text)
    (le : n < m) : (env.extend name (Supply.placeholder n)).Plain m := by
  refine (plain.later (Nat.le_of_lt le)).extend_mono trivial fun x hx => ?_
  have equal : x = Supply.name n := by simpa [Supply.placeholder, Ty.occurrences] using hx
  rw [equal, Supply.name_ahead]
  omega

theorem Env.Plain.drawn {env : Env} {e : Program} {n m : Nat} (plain : env.Plain n) (le : n ≤ m)
    {t : Ty} (drawn : DrawnType env e n m t) (name : Text) :
    (env.extend name t).Plain m :=
  (plain.later le).extend_mono drawn.1 fun x hx => (drawn.2 x hx).not_ahead plain le

theorem Env.Plain.generalized {env : Env} {e : Program} {n m : Nat} (plain : env.Plain n)
    (le : n ≤ m) {t : Ty} (drawn : DrawnType env e n m t) (outer : Env) (name : Text) :
    (env.extend name (outer.generalize t)).Plain m := by
  refine (plain.later le).extend (Env.scheme_generalize drawn.1 outer) fun x hx => ?_
  rw [Env.core_generalize drawn.1, Env.quantified_generalize drawn.1] at hx
  have occurs : x ∈ t.occurrences := hx.elim id And.left
  exact (drawn.2 x occurs).not_ahead plain le

theorem Generates.bounded {env : Env} {n m : Nat} {e : Program} {g : Generated}
    (h : Generates env n e g m) (plain : env.Plain n) : Bounded env n e g m := by
  induction h with
  | int | bool | str =>
      refine ⟨Nat.le_refl _, ?_, by simp⟩
      simp [Annotated.types, Expr.notes, drawnType_prim, Ty.int, Ty.bool, Ty.string]
  | ident found placed =>
      rw [plain.instanceAt found] at placed
      cases placed
      refine ⟨Nat.le_add_right _ _, ?_, by simp⟩
      simpa [Annotated.types, Expr.notes] using drawnType_instance plain found
  | @func _ _ _ parameter _ _ _ _ ih => exact .func (ih (plain.parameter parameter (by omega)))
  | not _ ih => exact .not (ih plain)
  | binary _ _ ihl ihr =>
      have left := ihl plain
      exact .binary left (ihr (plain.later left.le))
  | cond _ _ _ iht ihy ihn =>
      have test := iht plain
      have yes := ihy (plain.later test.le)
      exact .cond test yes (ihn ((plain.later test.le).later yes.le))
  | call _ _ ihc iha =>
      have callee := ihc plain
      exact .call callee (iha (plain.later callee.le))
  | @letPlain env n place name value body v k _ refined _ _ _ _ solves _ applies _ ihv ihb =>
      have inner := ihv plain
      have general := Unify.mostGeneral_of_ok inner.mono solves
      rw [general.solved.apply inner.type.1] at applies
      cases applies
      have outer : Bounded env n (.letIn place name false value body) v k := inner.plain
      have drawn := outer.solved general outer.type
      refine outer.letIn (ihb (plain.generalized outer.le drawn refined name)) fun x hx => ?_
      rw [Env.mem_occurrences_generalize drawn.1] at hx
      exact drawn.2 x hx.1
  | @letRec env n place name value body v k _ _ _ _ _ _ solves _ applies _ ihv ihb =>
      have inner := ihv (plain.parameter name (Nat.lt_succ_self n))
      have general := Unify.mostGeneral_of_ok inner.mono solves
      rw [general.solved.apply inner.type.1] at applies
      cases applies
      have outer : Bounded env n (.letIn place name true value body) v k := inner.recursive
      have drawn := outer.solved general outer.type
      exact outer.letIn (ihb (plain.drawn outer.le drawn name)) drawn.2

def Generated.allTypes (g : Generated) : List Ty :=
  g.type :: g.tree.types ++ g.constraints.flatMap fun c => [c.left, c.right]

theorem Bounded.allTypes {env : Env} {e : Program} {n m : Nat} {g : Generated}
    (h : Bounded env n e g m) : ∀ t ∈ g.allTypes, DrawnType env e n m t := by
  intro t ht
  simp only [Generated.allTypes, List.cons_append, List.mem_cons, List.mem_append,
    List.mem_flatMap, List.not_mem_nil, or_false] at ht
  obtain rfl | ht | ⟨c, hc, rfl | rfl⟩ := ht
  · exact h.type
  · exact h.types t ht
  · exact (h.constraints c hc).1
  · exact (h.constraints c hc).2

theorem Env.plain_of_mentions {env : Env} {n : Nat} (schemes : ∀ binding ∈ env, binding.2.Scheme)
    (unused : ∀ binding ∈ env, ∀ i, n ≤ i → binding.2.mentions (Supply.name i) = false) :
    env.Plain n := by
  refine ⟨schemes, fun binding hb x hx => ?_⟩
  rintro ⟨i, later, rfl⟩
  have absent := unused binding hb i later
  rw [Ty.mentions_of_mem_core hx] at absent
  cases absent

/-- In an environment of schemes that do not mention the names still to come, generation gives no
quantified type, and mentions only what is free in the schemes of free identifiers and the names
that it takes from the supply. -/
theorem generation_draws_its_names {env : Env} {e : Program} {trace trace' : Trace}
    {g : Generated} (schemes : ∀ binding ∈ env, binding.2.Scheme)
    (unused : ∀ binding ∈ env, ∀ i, trace.counter ≤ i →
      binding.2.mentions (Supply.name i) = false)
    (generated : generate env e trace = .ok g trace') :
    trace.counter ≤ trace'.counter ∧
    ∀ t ∈ g.allTypes, t.Mono ∧ ∀ x, t.mentions x = true →
      (∃ y ∈ e.freeNames, ∃ scheme, env.get? y = some scheme ∧ x ∈ scheme.free) ∨
      ∃ i, trace.counter ≤ i ∧ i < trace'.counter ∧ x = Supply.name i := by
  have plain : env.Plain trace.counter := Env.plain_of_mentions schemes unused
  have bounded := (generates_of_ok generated).bounded plain
  refine ⟨bounded.le, fun t ht => ?_⟩
  obtain ⟨mono, drawn⟩ := bounded.allTypes t ht
  refine ⟨mono, fun x mentioned => ?_⟩
  cases drawn x (mono.mentions_iff.1 mentioned) with
  | inl shown =>
      obtain ⟨y, hy, scheme, found, occurs⟩ := shown
      exact .inl ⟨y, hy, scheme, found, Ty.mem_free.2 occurs⟩
  | inr within => exact .inr within

/-- In `let f = fun x -> k x in f` the placeholder `'b` comes from the scheme of `k`, and all
others from the supply. -/
theorem generation_draws_its_names_outer :
    let env : Env := [("k", .poly ["a"] (.arrow (.var "a") (.var "b")))]
    let e : Program := .letIn none "f" false
      (.func none "x" (.call none (.ident none "k") (.ident none "x"))) (.ident none "f")
    let g : Generated :=
      ⟨.letIn (none, .arrow (.var "g") (.var "d")) "f" false
        (.func (none, .arrow (.var "c") (.var "d")) "x"
          (.call (none, .var "f") (.ident (none, .arrow (.var "e") (.var "b")) "k")
            (.ident (none, .var "c") "x")))
        (.ident (none, .arrow (.var "g") (.var "d")) "f"),
        [⟨.arrow (.var "e") (.var "b"), .arrow (.var "c") (.var "f"), none⟩,
          ⟨.var "f", .var "d", none⟩]⟩
    (∀ binding ∈ env, binding.2.Scheme) ∧
      (∀ binding ∈ env, ∀ i, 2 ≤ i → binding.2.mentions (Supply.name i) = false) ∧
      (∃ events, generate env e { counter := 2 } = .ok g ⟨7, events⟩) ∧
      ∀ t ∈ g.allTypes, t.Mono ∧ ∀ x, t.mentions x = true →
        (∃ y ∈ e.freeNames, ∃ scheme, env.get? y = some scheme ∧ x ∈ scheme.free) ∨
        ∃ i, 2 ≤ i ∧ i < 7 ∧ x = Supply.name i := by
  intro env e g
  have schemes : ∀ binding ∈ env, binding.2.Scheme := by
    simp [env, Ty.Scheme, Ty.core, Ty.Mono]
  have known : ∀ i j, i < 2 → 2 ≤ j → Supply.name i ≠ Supply.name j := by
    intro i j before after same
    have equal : i = j := Supply.name_injective same
    omega
  have unused : ∀ binding ∈ env, ∀ i, 2 ≤ i → binding.2.mentions (Supply.name i) = false := by
    intro binding hb i later
    have first : "a" ≠ Supply.name i := known 0 i (by decide) later
    have second : "b" ≠ Supply.name i := known 1 i (by decide) later
    rw [List.mem_singleton.1 hb]
    simp [Ty.mentions, first, first.symm, second]
  have solves : Unify.solve [⟨.arrow (.var "e") (.var "b"), .arrow (.var "c") (.var "f"), none⟩,
      ⟨.var "f", .var "d", none⟩] =
        .ok ⟨[("f", .var "d"), ("b", .var "d"), ("e", .var "c")], 2⟩ := by
    cbv
  have generated : generate env e { counter := 2 } = .ok _ _ :=
    generate_letIn rfl rfl solves rfl rfl
  refine ⟨schemes, unused, ⟨_, generated⟩, ?_⟩
  exact (generation_draws_its_names schemes unused generated).2

end HindleyMilner

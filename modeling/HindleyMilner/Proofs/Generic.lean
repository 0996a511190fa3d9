import HindleyMilner.Proofs.Refine
import HindleyMilner.Proofs.Typing

/-!
Generic solutions. A solution of the equations of a node is generic if whatever else solves them
and looks the same from outside refines it. The most general solution is generic at the root, and
genericity passes from a node to its parts: what a part hands out is seen by the rest of the node
through the type of the part only. For the value of a plain `let` this gives back what solving may
have hidden: the uses of its name have instances of its type.
-/

namespace HindleyMilner

/-- What else solves the equations of a node and looks the same from outside refines `S`. -/
def Generic (S : Assignment) (n : Nat) (g : Generated) (m : Nat) : Prop :=
  ∀ θ : Assignment, Unifies θ g.constraints → (∀ x, ¬ Supply.Within n m x → θ x = S x) →
    g.type.assign θ = g.type.assign S → ∀ x, (S x).assign θ = θ x

theorem Generic.part {S : Assignment} {n i j m : Nat} {g part : Generated} (h : Generic S n g m)
    (hn : n ≤ i) (hm : j ≤ m)
    (keeps : ∀ θ : Assignment, Unifies θ part.constraints →
      (∀ x, ¬ Supply.Within i j x → θ x = S x) → part.type.assign θ = part.type.assign S →
      Unifies θ g.constraints ∧ g.type.assign θ = g.type.assign S) :
    Generic S i part j := by
  intro θ unifies agree type
  have whole := keeps θ unifies agree type
  exact h θ whole.1 (fun x hx => agree x fun within => hx (within.widen hn hm)) whole.2

theorem typing_congr (op : Operator) (place : Option Location) {l r : Ty} {θ S : Assignment}
    (hl : l.assign θ = l.assign S) (hr : r.assign θ = r.assign S) :
    (Unifies θ (op.typing place l r).2 ↔ Unifies S (op.typing place l r).2) ∧
      (op.typing place l r).1.assign θ = (op.typing place l r).1.assign S := by
  cases op <;>
    simp [Operator.typing, Operator.category, Operator.Category.operand?, hl, hr, Ty.assign, Ty.int,
      Ty.bool, Ty.string]

namespace Generic

variable {S : Assignment} {env : Env} {n i j k m : Nat} {place : Option Location}

theorem func {parameter : Text} {g : Generated}
    (h : Generic S n ⟨.func (place, .arrow (Supply.placeholder n) (Supply.placeholder (n + 1)))
      parameter g.tree, g.constraints ++ [⟨g.type, Supply.placeholder (n + 1), place⟩]⟩ m)
    (result : g.type.assign S = S (Supply.name (n + 1))) : Generic S (n + 2) g m := by
  refine h.part (by omega) (Nat.le_refl m) fun θ unifies agree type => ?_
  have domain : θ (Supply.name n) = S (Supply.name n) :=
    agree _ (by rw [Supply.name_within]; omega)
  have codomain : θ (Supply.name (n + 1)) = S (Supply.name (n + 1)) :=
    agree _ (by rw [Supply.name_within]; omega)
  constructor
  · simp only [unifies_append, unifies_cons, unifies_nil, and_true]
    refine ⟨unifies, ?_⟩
    rw [type, result, Supply.placeholder, Ty.assign, codomain]
  · change Ty.arrow (θ _) (θ _) = Ty.arrow (S _) (S _)
    rw [domain, codomain]

theorem not {g : Generated}
    (h : Generic S n ⟨.not (place, .bool) g.tree, g.constraints ++ [⟨g.type, .bool, place⟩]⟩ m)
    (result : g.type.assign S = .bool) : Generic S n g m := by
  refine h.part (Nat.le_refl n) (Nat.le_refl m) fun θ unifies _ type => ⟨?_, rfl⟩
  simp only [unifies_append, unifies_cons, unifies_nil, and_true]
  exact ⟨unifies, type.trans result⟩

theorem binary {op : Operator} {left right : Program} {l r : Generated}
    (h : Generic S n ⟨.binary (place, (op.typing place l.type r.type).1) op l.tree r.tree,
      l.constraints ++ r.constraints ++ (op.typing place l.type r.type).2⟩ m)
    (plain : env.Plain n) (hl : Bounded env n left l k) (hr : Bounded env k right r m)
    (unifies : Unifies S (l.constraints ++ r.constraints ++ (op.typing place l.type r.type).2)) :
    Generic S n l k ∧ Generic S k r m := by
  simp only [unifies_append] at unifies
  constructor
  · refine h.part (Nat.le_refl n) hr.le fun θ unifiesLeft agree type => ?_
    have other := hr.undisturbed plain (Nat.le_refl n) (.inr (Nat.le_refl k)) agree
    have own := typing_congr op place type other.2
    simp only [unifies_append]
    exact ⟨⟨⟨unifiesLeft, other.1.2 unifies.1.2⟩, own.1.2 unifies.2⟩, own.2⟩
  · refine h.part hl.le (Nat.le_refl m) fun θ unifiesRight agree type => ?_
    have other := hl.undisturbed plain hl.le (.inl (Nat.le_refl k)) agree
    have own := typing_congr op place other.2 type
    simp only [unifies_append]
    exact ⟨⟨⟨other.1.2 unifies.1.1, unifiesRight⟩, own.1.2 unifies.2⟩, own.2⟩

theorem cond {test yes no : Program} {c y z : Generated}
    (h : Generic S n ⟨.cond (place, y.type) c.tree y.tree z.tree,
      c.constraints ++ y.constraints ++ z.constraints ++
        [⟨c.type, .bool, place⟩, ⟨y.type, z.type, place⟩]⟩ m)
    (plain : env.Plain n) (hc : Bounded env n test c j) (hy : Bounded env j yes y k)
    (hz : Bounded env k no z m)
    (unifies : Unifies S (c.constraints ++ y.constraints ++ z.constraints ++
      [⟨c.type, .bool, place⟩, ⟨y.type, z.type, place⟩])) :
    Generic S n c j ∧ Generic S j y k ∧ Generic S k z m := by
  simp only [unifies_append, unifies_cons, unifies_nil, and_true] at unifies
  obtain ⟨⟨⟨unifiesTest, unifiesYes⟩, unifiesNo⟩, test, branches⟩ := unifies
  refine ⟨?_, ?_, ?_⟩
  · refine h.part (Nat.le_refl n) (Nat.le_trans hy.le hz.le) fun θ solves agree type => ?_
    have yes := hy.undisturbed plain (Nat.le_refl n) (.inr (Nat.le_refl j)) agree
    have no := hz.undisturbed plain (Nat.le_refl n) (.inr hy.le) agree
    simp only [unifies_append, unifies_cons, unifies_nil, and_true]
    refine ⟨⟨⟨⟨solves, yes.1.2 unifiesYes⟩, no.1.2 unifiesNo⟩, type.trans test, ?_⟩, yes.2⟩
    rw [yes.2, no.2, branches]
  · refine h.part hc.le hz.le fun θ solves agree type => ?_
    have first := hc.undisturbed plain hc.le (.inl (Nat.le_refl j)) agree
    have no := hz.undisturbed plain hc.le (.inr (Nat.le_refl k)) agree
    simp only [unifies_append, unifies_cons, unifies_nil, and_true]
    refine ⟨⟨⟨⟨first.1.2 unifiesTest, solves⟩, no.1.2 unifiesNo⟩, first.2.trans test, ?_⟩, type⟩
    rw [type, no.2, branches]
  · refine h.part (Nat.le_trans hc.le hy.le) (Nat.le_refl m) fun θ solves agree type => ?_
    have le := Nat.le_trans hc.le hy.le
    have first := hc.undisturbed plain le (.inl hy.le) agree
    have yes := hy.undisturbed plain le (.inl (Nat.le_refl k)) agree
    simp only [unifies_append, unifies_cons, unifies_nil, and_true]
    refine ⟨⟨⟨⟨first.1.2 unifiesTest, yes.1.2 unifiesYes⟩, solves⟩, first.2.trans test, ?_⟩, yes.2⟩
    rw [yes.2, type, branches]

theorem call {callee argument : Program} {f a : Generated}
    (h : Generic S n ⟨.call (place, Supply.placeholder m) f.tree a.tree,
      f.constraints ++ a.constraints ++
        [⟨f.type, .arrow a.type (Supply.placeholder m), place⟩]⟩ (m + 1))
    (plain : env.Plain n) (hf : Bounded env n callee f k) (ha : Bounded env k argument a m)
    (unifies : Unifies S (f.constraints ++ a.constraints ++
      [⟨f.type, .arrow a.type (Supply.placeholder m), place⟩])) :
    Generic S n f k ∧ Generic S k a m := by
  simp only [unifies_append, unifies_cons, unifies_nil, and_true] at unifies
  obtain ⟨⟨unifiesCallee, unifiesArgument⟩, own⟩ := unifies
  constructor
  · refine h.part (Nat.le_refl n) (Nat.le_succ_of_le ha.le) fun θ solves agree type => ?_
    have other := ha.undisturbed plain (Nat.le_refl n) (.inr (Nat.le_refl k)) agree
    have result : (Supply.placeholder m).assign θ = (Supply.placeholder m).assign S :=
      agree _ fun within => within.not_ahead (Supply.name_ahead.2 ha.le)
    simp only [unifies_append, unifies_cons, unifies_nil, and_true]
    refine ⟨⟨⟨solves, other.1.2 unifiesArgument⟩, ?_⟩, result⟩
    rw [type, own, Ty.assign, Ty.assign, other.2, result]
  · refine h.part hf.le (Nat.le_succ m) fun θ solves agree type => ?_
    have other := hf.undisturbed plain hf.le (.inl (Nat.le_refl k)) agree
    have result : (Supply.placeholder m).assign θ = (Supply.placeholder m).assign S :=
      agree _ fun within => within.not_ahead (Supply.name_ahead.2 (Nat.le_refl m))
    simp only [unifies_append, unifies_cons, unifies_nil, and_true]
    refine ⟨⟨⟨other.1.2 unifiesCallee, solves⟩, ?_⟩, result⟩
    rw [other.2, own, Ty.assign, Ty.assign, type, result]

theorem letIn {value body : Program} {v b : Generated} {name : Text} {recursive : Bool}
    {s : Subst} {t : Ty}
    (h : Generic S n ⟨.letIn (place, b.type) name recursive v.tree b.tree,
      v.constraints ++ b.constraints⟩ m)
    (plain : env.Plain n) (general : Unify.MostGeneral s v.constraints) (hi : n ≤ i)
    (hv : Bounded env n value v k) (hb : Bounded (env.extend name t) k body b m)
    (inside : t.occurrences ⊆ (v.type.assign s.value).occurrences)
    (unifies : Unifies S (v.constraints ++ b.constraints)) :
    Generic S i v k ∧ Generic S k b m := by
  simp only [unifies_append] at unifies
  constructor
  · refine h.part hi hb.le fun θ solves agree type => ?_
    have solved : (v.type.assign s.value).assign θ = (v.type.assign s.value).assign S := by
      rw [general.assign_value solves hv.type.1, general.assign_value unifies.1 hv.type.1, type]
    have rest := hb.undisturbed_binder plain (fun x hx => Ty.eq_of_assign_eq solved (inside hx))
      fun x hx => agree x fun within => hx (within.widen hi (Nat.le_refl k))
    exact ⟨unifies_append.2 ⟨solves, rest.1.2 unifies.2⟩, rest.2⟩
  · refine h.part hv.le (Nat.le_refl m) fun θ solves agree type => ?_
    have value := hv.undisturbed plain hv.le (.inl (Nat.le_refl k)) agree
    exact ⟨unifies_append.2 ⟨value.1.2 unifies.1, solves⟩, type⟩

end Generic

/-- A use of a name bound by a plain `let` has an instance of the type of the value, also after
solving: the types it was instantiated with can be put into the solution without anyone outside
the value noticing, and a generic solution is refined by the changed one. -/
theorem Settled.exists_instance {env refined : Env} {n k m : Nat} {value body : Program}
    {v b : Generated} {s : Subst} {name : Text} {place : Option Location} {S : Assignment}
    (settled : Settled env v s refined) (ready : env.Ready n) (hv : Bounded env n value v k)
    (hb : Bounded (env.extend name (refined.generalize (v.type.assign s.value))) k body b m)
    (hS : S.Mono) (unifiesValue : Unifies S v.constraints) (unifiesBody : Unifies S b.constraints)
    (generic : Generic S n ⟨.letIn (place, b.type) name false v.tree b.tree,
      v.constraints ++ b.constraints⟩ m) {u : Ty}
    (inst : Instance (refined.generalize (v.type.assign s.value)) u) :
    ∃ δ : Assignment, δ.Mono ∧ u.assign S = (v.type.assign S).assign δ := by
  have drawn := hv.solved settled.general hv.type
  have quantified := Env.quantified_generalize drawn.1 refined
  obtain ⟨ρ, hρ, fixed, rfl⟩ := inst
  rw [Env.core_generalize drawn.1]
  have fixedS : ∀ y, y ∉ (refined.generalize (v.type.assign s.value)).quantified →
      (ρ y).assign S = S y := by
    intro y hy
    rw [fixed y hy, Ty.assign]
  obtain ⟨unifies, same⟩ := settled.refit (κ := fun y => (ρ y).assign S) unifiesValue fun y hy =>
    fixedS y fun mem => ((quantified y).1 mem).2 hy
  -- The changed solution differs from `S` at names of the value only, and not at those that the
  -- body sees.
  have agree : ∀ x, ¬ Supply.Within n k x →
      (s.value x).assign (fun y => (ρ y).assign S) = S x := by
    intro x hx
    by_cases free : x ∈ env.free
    · exact same x free
    · have notDrawn : ¬ Drawn env value n k x := fun drawn =>
        drawn.elim (fun shown => free shown.mem_free) hx
      rw [Subst.value_of_notMem fun named =>
        notDrawn (hv.mem_occurrences (settled.general.names named)), Ty.assign]
      exact fixedS x fun mem => notDrawn (drawn.2 x ((quantified x).1 mem).1)
  have scheme : ∀ x ∈ (refined.generalize (v.type.assign s.value)).occurrences,
      (s.value x).assign (fun y => (ρ y).assign S) = S x := by
    intro x hx
    rw [settled.value_eq hv.type.1 ((Env.mem_occurrences_generalize drawn.1 refined x).1 hx).1,
      Ty.assign]
    exact fixedS x (Ty.mem_occurrences.1 hx).2
  have rest := hb.undisturbed_binder ready.toPlain scheme agree
  have refines := generic _ (unifies_append.2 ⟨unifies, rest.1.2 unifiesBody⟩)
    (fun x hx => agree x fun within => hx (within.widen (Nat.le_refl n) hb.le)) rest.2
  refine ⟨_, fun x => (settled.general.solved.value_mono x).assign fun y _ =>
    (hρ y).assign fun z _ => hS z, ?_⟩
  rw [Ty.assign_assign drawn.1, Ty.assign_assign hv.type.1, Ty.assign_assign hv.type.1]
  exact Ty.assign_congr fun x _ => (refines x).symm

end HindleyMilner

import HindleyMilner.Proofs.Annotation
import HindleyMilner.Proofs.TypeText

/-!
What inferred types are built from. Generation writes the three base types and placeholders only. A
most general solution brings in no base type of its own: a placeholder in its place would be as
good, and the solution would not refine that one. So every type of an annotated program is made of
the base types and of names of the supply, and its text determines it.
-/

namespace HindleyMilner

namespace Ty

def prims : Ty → List String
  | prim p => [p]
  | var _ | foreign _ => []
  | arrow d c => d.prims ++ c.prims
  | poly _ b => b.prims

def Based (t : Ty) : Prop :=
  ∀ p ∈ t.prims, p ∈ baseNames

variable {t d c : Ty} {p : String} {θ : Assignment}

theorem based_prim : (prim p).Based ↔ p ∈ baseNames :=
  List.forall_mem_singleton

theorem based_arrow : (arrow d c).Based ↔ d.Based ∧ c.Based :=
  List.forall_mem_append

theorem based_placeholder (i : Nat) : (Supply.placeholder i).Based := nofun

theorem mem_prims_assign :
    p ∈ (t.assign θ).prims ↔ p ∈ t.prims ∨ ∃ x ∈ t.occurrences, p ∈ (θ x).prims := by
  induction t generalizing θ with
  | prim | foreign => simp [Ty.assign, prims, occurrences]
  | var x => simp [Ty.assign, prims, occurrences]
  | arrow d c ihd ihc =>
      simp only [Ty.assign, prims, occurrences, List.mem_append, ihd, ihc, or_and_right, exists_or]
      exact or_or_or_comm
  | poly bound b ih =>
      simp only [Ty.assign, prims, occurrences, ih, List.mem_filter, decide_eq_true_eq]
      refine or_congr_right (exists_congr fun x => ?_)
      by_cases quantified : x ∈ bound
      · simp [quantified, prims]
      · simp [quantified]

theorem Based.assign (based : t.Based) (h : ∀ x ∈ t.occurrences, (θ x).Based) :
    (t.assign θ).Based := by
  intro p hp
  rcases mem_prims_assign.1 hp with own | ⟨x, hx, inside⟩
  · exact based p own
  · exact h x hx p inside

def forget (p : String) : Ty → Ty
  | prim q => if q = p then var p else prim q
  | var x => var x
  | arrow d c => arrow (d.forget p) (c.forget p)
  | poly bound b => poly bound (b.forget p)
  | foreign s => foreign s

theorem notMem_prims_forget (p : String) (t : Ty) : p ∉ (t.forget p).prims := by
  induction t with
  | prim q =>
      by_cases same : q = p
      · simp [forget, prims, same]
      · simp [forget, prims, same, Ne.symm same]
  | var | foreign => exact List.not_mem_nil
  | arrow d c ihd ihc => simp [forget, prims, ihd, ihc]
  | poly bound b ih => exact ih

theorem forget_assign (mono : t.Mono) (absent : p ∉ t.prims) :
    (t.assign θ).forget p = t.assign fun x => (θ x).forget p := by
  induction t with
  | prim q =>
      have other : q ≠ p := fun same => absent (by simp [prims, same])
      simp [Ty.assign, forget, other]
  | var => rfl
  | arrow d c ihd ihc =>
      simp only [prims, List.mem_append, not_or] at absent
      rw [Ty.assign, forget, ihd mono.1 absent.1, ihc mono.2 absent.2, Ty.assign]
  | poly | foreign => exact mono.elim

end Ty

theorem Unify.MostGeneral.based {s : Subst} {cs : List Constraint} (general : MostGeneral s cs)
    (mono : ∀ c ∈ cs, c.Mono) (based : ∀ c ∈ cs, c.left.Based ∧ c.right.Based) (x : String) :
    (s.value x).Based := by
  intro p hp
  by_contra other
  -- With a placeholder for `p` the equations are still solved, since `p` is not in them.
  have unifies : Unifies (fun x => (s.value x).forget p) cs := by
    intro c hc
    rw [← Ty.forget_assign (mono c hc).1 fun mem => other ((based c hc).1 p mem),
      ← Ty.forget_assign (mono c hc).2 fun mem => other ((based c hc).2 p mem),
      general.unifies c hc]
  have refines := (general.unifies_iff _).1 unifies x
  have absent := Ty.notMem_prims_forget p (s.value x)
  rw [← refines, Ty.mem_prims_assign, not_or] at absent
  exact absent.1 hp

structure Generated.Based (g : Generated) : Prop where
  types : ∀ t ∈ g.tree.types, t.Based
  constraints : ∀ c ∈ g.constraints, c.left.Based ∧ c.right.Based

theorem Generated.Based.type {g : Generated} (h : g.Based) : g.type.Based :=
  h.types g.type g.tree.type_mem_types

theorem Generated.Based.letIn {v b : Generated} (hv : v.Based) (hb : b.Based)
    (place : Option Location) (name : Text) (recursive : Bool) :
    Generated.Based ⟨.letIn (place, b.type) name recursive v.tree b.tree,
      v.constraints ++ b.constraints⟩ := by
  constructor
  · simp only [Annotated.types, Expr.notes, List.map_cons, List.map_append,
      List.forall_mem_cons, List.forall_mem_append]
    exact ⟨hb.type, hv.types, hb.types⟩
  · exact List.forall_mem_append.2 ⟨hv.constraints, hb.constraints⟩

theorem Settled.based {env refined : Env} {v : Generated} {s : Subst}
    (settled : Settled env v s refined) (mono : ∀ c ∈ v.constraints, c.Mono) (based : v.Based) :
    (v.type.assign s.value).Based ∧ (refined.generalize (v.type.assign s.value)).Based := by
  have solved : (v.type.assign s.value).Based :=
    based.type.assign fun x _ => settled.general.based mono based.constraints x
  refine ⟨solved, ?_⟩
  simp only [Env.generalize]
  split <;> exact solved

theorem based_typing (op : Operator) (place : Option Location) {l r : Ty} (hl : l.Based)
    (hr : r.Based) : (op.typing place l r).1.Based ∧
      ∀ c ∈ (op.typing place l r).2, c.left.Based ∧ c.right.Based := by
  cases op <;>
    simp [Operator.typing, Operator.category, Operator.Category.operand?, hl, hr, Ty.based_prim,
      Ty.int, Ty.bool, Ty.string, Ty.baseNames]

theorem Generates.based {env : Env} {n m : Nat} {e : Program} {g : Generated}
    (h : Generates env n e g m) (ready : env.Ready n) (based : ∀ binding ∈ env, binding.2.Based) :
    g.Based := by
  have bool : Ty.bool.Based := Ty.based_prim.2 (by decide)
  induction h with
  | int => exact ⟨List.forall_mem_singleton.2 (Ty.based_prim.2 (by decide)), List.forall_mem_nil _⟩
  | bool => exact ⟨List.forall_mem_singleton.2 bool, List.forall_mem_nil _⟩
  | str => exact ⟨List.forall_mem_singleton.2 (Ty.based_prim.2 (by decide)), List.forall_mem_nil _⟩
  | @ident env n _ _ scheme _ found placed =>
      rw [ready.toPlain.instanceAt found] at placed
      cases placed
      have core : scheme.core.Based := by
        have whole := based _ (Env.mem_of_get? found)
        cases scheme <;> exact whole
      refine ⟨List.forall_mem_singleton.2 (core.assign fun x _ => ?_), List.forall_mem_nil _⟩
      rw [Ty.freshen]
      split <;> exact List.forall_mem_nil _
  | @func _ n _ parameter _ g _ _ ih =>
      have body := ih (ready.parameter parameter (by omega))
        (List.forall_mem_cons.2 ⟨Ty.based_placeholder n, based⟩)
      have own := Ty.based_arrow.2 ⟨Ty.based_placeholder n, Ty.based_placeholder (n + 1)⟩
      exact ⟨List.forall_mem_cons.2 ⟨own, body.types⟩, List.forall_mem_append.2
        ⟨body.constraints, List.forall_mem_singleton.2 ⟨body.type, Ty.based_placeholder _⟩⟩⟩
  | not _ ih =>
      have operand := ih ready based
      exact ⟨List.forall_mem_cons.2 ⟨bool, operand.types⟩, List.forall_mem_append.2
        ⟨operand.constraints, List.forall_mem_singleton.2 ⟨operand.type, bool⟩⟩⟩
  | @binary _ _ place op _ _ _ _ _ _ left _ ihl ihr =>
      have first := ihl ready based
      have second := ihr (ready.after left) based
      have own := based_typing op place first.type second.type
      constructor
      · simp only [Annotated.types, Expr.notes, List.map_cons, List.map_append,
          List.forall_mem_cons, List.forall_mem_append]
        exact ⟨own.1, first.types, second.types⟩
      · simp only [List.forall_mem_append]
        exact ⟨⟨first.constraints, second.constraints⟩, own.2⟩
  | cond test yes _ iht ihy ihn =>
      have readyYes := ready.after test
      have first := iht ready based
      have second := ihy readyYes based
      have third := ihn (readyYes.after yes) based
      constructor
      · simp only [Annotated.types, Expr.notes, List.map_cons, List.map_append,
          List.forall_mem_cons, List.forall_mem_append]
        exact ⟨second.type, ⟨first.types, second.types⟩, third.types⟩
      · simp only [List.forall_mem_append, List.forall_mem_cons, List.not_mem_nil,
          false_implies, implies_true, and_true]
        exact ⟨⟨⟨first.constraints, second.constraints⟩, third.constraints⟩,
          ⟨first.type, bool⟩, second.type, third.type⟩
  | @call _ _ _ _ _ _ _ _ m callee _ ihc iha =>
      have first := ihc ready based
      have second := iha (ready.after callee) based
      have result := Ty.based_placeholder m
      constructor
      · simp only [Annotated.types, Expr.notes, List.map_cons, List.map_append,
          List.forall_mem_cons, List.forall_mem_append]
        exact ⟨result, first.types, second.types⟩
      · simp only [List.forall_mem_append, List.forall_mem_singleton]
        exact ⟨⟨first.constraints, second.constraints⟩, first.type,
          Ty.based_arrow.2 ⟨second.type, result⟩⟩
  | @letPlain _ _ place name _ _ _ _ _ _ _ _ _ value solves refines applies _ ihv ihb =>
      obtain ⟨rfl, settled, readyBody⟩ := value.settle ready solves refines applies
      have first := ihv ready based
      have scheme := (settled.based (value.bounded ready.toPlain).mono first).2
      have second := ihb readyBody (List.forall_mem_cons.2 ⟨scheme, based⟩)
      exact first.letIn second place name false
  | @letRec _ n place name _ _ _ _ _ _ _ _ _ value solves refines applies _ ihv ihb =>
      obtain ⟨rfl, settled, readyBody⟩ := value.settle_recursive ready solves refines applies
      have inner := ready.parameter name (Nat.lt_succ_self n)
      have first := ihv inner (List.forall_mem_cons.2 ⟨Ty.based_placeholder n, based⟩)
      have type := (settled.based (value.bounded inner.toPlain).mono first).1
      have second := ihb readyBody (List.forall_mem_cons.2 ⟨type, based⟩)
      exact first.letIn second place name true

theorem Supply.isPlain_name (n : Nat) : Ty.isPlain (Supply.name n) = true := by
  have letters : ∀ k < 26, Source.isLetter (Char.ofNat (97 + k)) = true := by decide
  have digits : ∀ k : Nat, ∀ c ∈ (toString k).toList, Json.isDigit c = true := by
    intro k c hc
    rw [show (toString k).toList = _ from Nat.toList_repr] at hc
    exact Nat.isDigit_of_mem_toDigits (by decide) (by decide) hc
  have chars : (Supply.name n).toList = Supply.letter n ::
      (if n / 26 = 0 then "" else toString (n / 26)).toList := by
    simp [Supply.name]
  have some : Supply.name n ≠ "" := by
    intro empty
    rw [empty] at chars
    cases chars
  simp only [Ty.isPlain, Bool.and_eq_true, decide_eq_true_eq, List.all_eq_true, Bool.or_eq_true]
  refine ⟨some, ?_⟩
  rw [chars, List.forall_mem_cons]
  refine ⟨.inl (letters (n % 26) (Nat.mod_lt n (by omega))), fun c hc => .inr ?_⟩
  split at hc
  · cases hc
  · exact digits _ c hc

theorem Ty.legible_of_based {t : Ty} (mono : t.Mono) (based : t.Based)
    (plain : ∀ x ∈ t.occurrences, isPlain x = true) : t.legible = true := by
  induction t with
  | prim p => exact List.contains_iff_mem.2 (based_prim.1 based)
  | var x => exact plain x List.mem_cons_self
  | arrow d c ihd ihc =>
      obtain ⟨hd, hc⟩ := based_arrow.1 based
      obtain ⟨plainD, plainC⟩ := List.forall_mem_append.1 plain
      rw [legible, ihd mono.1 hd plainD, ihc mono.2 hc plainC, Bool.true_and]
  | poly | foreign => exact mono.elim

theorem exists_legible_tree {e : Program} {result : Inference} {trace : Trace}
    (ran : e.run true = .ok result trace) :
    ∃ tree, result.tree = some tree ∧ tree.erase = e ∧ ∀ t ∈ tree.types, t.legible = true := by
  obtain ⟨g, m, s, generates, general, annotated, -⟩ := exists_solved_tree ran
  have bounded := generates.bounded (.nil 0)
  have based := generates.based (.nil 0) nofun
  refine ⟨_, annotated, by rw [Annotated.erase_assign, generates.erase], fun t ht => ?_⟩
  rw [Annotated.types, Annotated.assign, Expr.notes_map, List.map_map] at ht
  obtain ⟨note, hn, rfl⟩ := List.mem_map.1 ht
  have raw : note.2 ∈ g.tree.types := List.mem_map_of_mem hn
  have drawn := bounded.solved general (bounded.types _ raw)
  refine Ty.legible_of_based drawn.1 ?_ fun x hx => ?_
  · exact (based.types _ raw).assign fun x _ => general.based bounded.mono based.constraints x
  · rcases drawn.2 x hx with ⟨_, _, _, found, _⟩ | ⟨i, -, -, rfl⟩
    · cases found
    · exact Supply.isPlain_name i

end HindleyMilner

import HindleyMilner.Proofs.Fresh
import HindleyMilner.Proofs.Generates

/-!
What a supply hands out. A computation gets its placeholders from `fresh` and from nowhere else, so
its steps tell which ones it draws and in what order, also if one of them fails. What it draws are
the next names of the supply, as many as the counter moves on, and no two of these are equal. So no
placeholder is handed out twice as long as the supply is not reset, whatever it is used for.
-/

namespace HindleyMilner

namespace Supply

def Consecutive (n : Nat) (given : List Ty) : Prop :=
  given = (List.range' n given.length).map placeholder

variable {n : Nat} {given rest : List Ty}

theorem Consecutive.append (h : Consecutive n given) (h' : Consecutive (n + given.length) rest) :
    Consecutive n (given ++ rest) := by
  unfold Consecutive at h h' ⊢
  rw [List.length_append, ← List.range'_append_1, List.map_append, ← h, ← h']

theorem Consecutive.eq_of_length (h : Consecutive n given) {other : List Ty}
    (h' : Consecutive n other) (length : other.length = given.length) : other = given := by
  rw [h', length, ← h]

theorem Consecutive.nodup (h : Consecutive n given) : given.Nodup := by
  have injective : Function.Injective placeholder :=
    fun _ _ same => name_injective (Ty.var.inj same)
  rw [h]
  exact List.Nodup.map injective List.nodup_range'

end Supply

namespace Infer

variable {α β : Type}

def after (m : Infer α) (trace : Trace) : Trace :=
  match m trace with
  | .ok _ next => next
  | .error _ next => next

theorem after_of_ok {m : Infer α} {trace next : Trace} {a : α} (h : m trace = .ok a next) :
    m.after trace = next := by
  rw [after, h]

theorem after_bind_of_ok {m : Infer α} {f : α → Infer β} {trace middle : Trace} {a : α}
    (h : m trace = .ok a middle) : (m >>= f).after trace = (f a).after middle := by
  have runs : (m >>= f) trace = f a middle := by
    change EStateM.bind m f trace = _
    rw [EStateM.bind, h]
  rw [after, runs, after]

theorem after_bind_of_error {m : Infer α} {f : α → Infer β} {trace middle : Trace} {fault : Fault}
    (h : m trace = .error fault middle) : (m >>= f).after trace = m.after trace := by
  have runs : (m >>= f) trace = .error fault middle := run_bind_error.2 (.inl h)
  rw [after, runs, after, h]

/-- Started at `trace`, the computation is handed the placeholders `given`, in this order. Nothing
follows a step that fails, and what was handed out before stays handed out. -/
inductive Draws : {α : Type} → Infer α → Trace → List Ty → Prop
  | fresh {trace t next} : fresh trace = .ok t next → Draws fresh trace [t]
  | note {event trace} : Draws (note event) trace []
  | lift {α trace} {m : Except Fault α} : Draws (lift m) trace []
  | bind {α β trace a middle first rest} {m : Infer α} {f : α → Infer β} :
      Draws m trace first → m trace = .ok a middle → Draws (f a) middle rest →
      Draws (m >>= f) trace (first ++ rest)
  | stop {α β trace fault middle given} {m : Infer α} {f : α → Infer β} :
      Draws m trace given → m trace = .error fault middle → Draws (m >>= f) trace given

theorem Draws.next {m : Infer α} {trace : Trace} {given : List Ty} (h : Draws m trace given) :
    Supply.Consecutive trace.counter given ∧
      (m.after trace).counter = trace.counter + given.length := by
  induction h with
  | fresh taken =>
      cases taken
      exact ⟨rfl, rfl⟩
  | note => exact ⟨rfl, rfl⟩
  | @lift _ _ m =>
      cases m with
      | ok | error => exact ⟨rfl, rfl⟩
  | bind _ succeeds _ ihm ihf =>
      obtain ⟨first, counted⟩ := ihm
      obtain ⟨rest, counted'⟩ := ihf
      -- What follows starts where the first part has left the counter.
      rw [after_of_ok succeeds] at counted
      rw [counted] at rest
      rw [after_bind_of_ok succeeds, counted', counted, List.length_append]
      exact ⟨first.append rest, Nat.add_assoc _ _ _⟩
  | stop _ fails ih => rwa [after_bind_of_error fails]

theorem Draws.unique {m : Infer α} {trace : Trace} {given other : List Ty}
    (h : Draws m trace given) (h' : Draws m trace other) : other = given := by
  obtain ⟨drawn, counted⟩ := h.next
  obtain ⟨drawn', counted'⟩ := h'.next
  exact drawn.eq_of_length drawn' (by omega)

def Accounted (m : Infer α) : Prop :=
  ∀ trace, ∃ given, Draws m trace given

theorem accounted_fresh : Accounted fresh :=
  fun _ => ⟨_, .fresh rfl⟩

theorem accounted_note (event : Event) : Accounted (note event) :=
  fun _ => ⟨_, .note⟩

theorem accounted_lift (m : Except Fault α) : Accounted (lift m) :=
  fun _ => ⟨_, .lift⟩

theorem accounted_pure (a : α) : Accounted (pure a) :=
  accounted_lift (.ok a)

theorem Accounted.bind {m : Infer α} {f : α → Infer β} (hm : Accounted m)
    (hf : ∀ a, Accounted (f a)) : Accounted (m >>= f) := by
  intro trace
  obtain ⟨first, draws⟩ := hm trace
  cases ends : m trace with
  | ok a middle =>
      obtain ⟨rest, draws'⟩ := hf a middle
      exact ⟨first ++ rest, .bind draws ends draws'⟩
  | error fault middle => exact ⟨first, .stop draws ends⟩

theorem accounted_instantiate (scheme : Ty) : Accounted (instantiate scheme) := by
  cases scheme with
  | poly bound body =>
      rw [instantiate]
      induction bound generalizing body with
      | nil => exact accounted_pure body
      | cons name bound ih =>
          rw [List.foldlM_cons]
          refine Accounted.bind ?_ ih
          exact accounted_fresh.bind fun placeholder => accounted_lift _
  | prim | var | arrow | foreign => exact accounted_pure _

theorem accounted_solve (cs : List Constraint) : Accounted (solve cs) :=
  (accounted_lift _).bind fun _ => (accounted_note _).bind fun _ => accounted_pure _

end Infer

theorem accounted_letScope (env : Env) (recursive : Bool) (name : Text) :
    (letScope env recursive name).Accounted := by
  cases recursive with
  | false => exact Infer.accounted_pure env
  | true => exact Infer.accounted_fresh.bind fun _ => Infer.accounted_pure _

theorem accounted_generate (env : Env) (e : Program) : (generate env e).Accounted := by
  induction e generalizing env with
  | int | bool | str => exact Infer.accounted_pure _
  | ident place name =>
      rw [generate]
      cases env.get? name with
      | none => exact Infer.accounted_lift (.error _)
      | some scheme =>
          exact (Infer.accounted_instantiate scheme).bind fun _ => Infer.accounted_pure _
  | func place parameter body ih =>
      exact Infer.accounted_fresh.bind fun _ => Infer.accounted_fresh.bind fun _ =>
        (ih _).bind fun _ => Infer.accounted_pure _
  | not place operand ih => exact (ih env).bind fun _ => Infer.accounted_pure _
  | binary place op left right ihl ihr =>
      exact (ihl env).bind fun _ => (ihr env).bind fun _ => Infer.accounted_pure _
  | cond place test yes no iht ihy ihn =>
      exact (iht env).bind fun _ => (ihy env).bind fun _ => (ihn env).bind fun _ =>
        Infer.accounted_pure _
  | call place callee argument ihc iha =>
      exact (ihc env).bind fun _ => (iha env).bind fun _ => Infer.accounted_fresh.bind fun _ =>
        Infer.accounted_pure _
  | letIn place name recursive value body ihv ihb =>
      exact (accounted_letScope env recursive name).bind fun _ => (ihv _).bind fun _ =>
        (Infer.accounted_solve _).bind fun _ => (Infer.accounted_lift _).bind fun _ =>
        (Infer.accounted_note _).bind fun _ => (ihb _).bind fun _ => Infer.accounted_pure _

-- What a computation that fails has drawn is not handed out again.
example : ((generate [] (.func none "x" (.ident none "y"))).after {}).counter = 2 := rfl

namespace Supply

inductive Use where
  | fresh
  | instantiate (scheme : Ty)
  | generate (env : Env) (e : Program)

namespace Use

def Answer : Use → Type
  | fresh | instantiate _ => Ty
  | generate _ _ => Generated

def perform : (use : Use) → Infer use.Answer
  | fresh => Infer.fresh
  | instantiate scheme => Infer.instantiate scheme
  | generate env e => HindleyMilner.generate env e

theorem accounted_perform (use : Use) : use.perform.Accounted := by
  cases use with
  | fresh => exact Infer.accounted_fresh
  | instantiate scheme => exact Infer.accounted_instantiate scheme
  | generate env e => exact accounted_generate env e

end Use

/-- Calls on one supply that is never reset hand out the placeholders `given`, in this order. They
go on after one that fails. -/
inductive HandsOut : Trace → List Use → List Ty → Prop
  | nil {trace} : HandsOut trace [] []
  | cons {trace use uses first rest} : use.perform.Draws trace first →
      HandsOut (use.perform.after trace) uses rest → HandsOut trace (use :: uses) (first ++ rest)

variable {trace : Trace} {uses : List Use} {given : List Ty}

theorem HandsOut.exists (trace : Trace) (uses : List Use) : ∃ given, HandsOut trace uses given := by
  induction uses generalizing trace with
  | nil => exact ⟨[], .nil⟩
  | cons use uses ih =>
      obtain ⟨first, draws⟩ := use.accounted_perform trace
      obtain ⟨rest, handed⟩ := ih (use.perform.after trace)
      exact ⟨first ++ rest, .cons draws handed⟩

theorem HandsOut.unique (h : HandsOut trace uses given) {other : List Ty}
    (h' : HandsOut trace uses other) : other = given := by
  induction h generalizing other with
  | nil =>
      cases h'
      rfl
  | cons draws _ ih =>
      cases h' with
      | cons draws' handed' => rw [draws.unique draws', ih handed']

theorem HandsOut.next (h : HandsOut trace uses given) : Consecutive trace.counter given := by
  induction h with
  | nil => rfl
  | cons draws _ ih =>
      obtain ⟨drawn, counted⟩ := draws.next
      rw [counted] at ih
      exact drawn.append ih

end Supply

/-- Names with different numbers differ. So the placeholders that a supply hands out are pairwise
distinct, over any calls and as long as it is not reset: they are the next ones from its counter
on. -/
theorem supply_never_repeats :
    (∀ i j : Nat, Supply.name i = Supply.name j → i = j) ∧
    ∀ (trace : Trace) (uses : List Supply.Use), ∃ given, Supply.HandsOut trace uses given ∧
      (∀ other, Supply.HandsOut trace uses other → other = given) ∧ given.Nodup ∧
      given = (List.range' trace.counter given.length).map Supply.placeholder := by
  refine ⟨fun i j same => Supply.name_injective same, fun trace uses => ?_⟩
  obtain ⟨given, handed⟩ := Supply.HandsOut.exists trace uses
  exact ⟨given, handed, fun other handed' => handed.unique handed', handed.next.nodup, handed.next⟩

end HindleyMilner

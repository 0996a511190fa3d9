import HindleyMilner.Ty.Normal
import HindleyMilner.Proofs.Typing
import Mathlib.Data.Set.Function

/-!
Types up to the names of placeholders. A renaming that keeps the names of a type apart does not
change its normal form, and the normal form is such a renaming, so that two types with one normal
form come from each other by an injective renaming. Two types without quantifiers that are instances
of each other do too.
-/

namespace HindleyMilner

def Apart (f : String → String) (names : List String) : Prop :=
  ∀ x ∈ names, ∀ y ∈ names, f x = f y → x = y

section

variable {f : String → String} {names : List String}

theorem Apart.subset {part : List String} (h : Apart f names) (sub : part ⊆ names) :
    Apart f part :=
  fun x hx y hy => h x (sub hx) y (sub hy)

theorem induction_on_distinct {motive : List String → Prop} (nil : motive [])
    (cons : ∀ x rest, motive (rest.filter fun y => !y == x) → motive (x :: rest))
    (names : List String) : motive names := by
  match names with
  | [] => exact nil
  | x :: rest => exact cons x rest (induction_on_distinct nil cons _)
termination_by names.length
decreasing_by exact Nat.lt_succ_of_le (List.length_filter_le _ _)

theorem Apart.eraseDups_map (h : Apart f names) :
    (names.map f).eraseDups = names.eraseDups.map f := by
  induction names using induction_on_distinct with
  | nil => rfl
  | cons x names ih =>
      have others : (names.map f).filter (fun y => !y == f x) =
          (names.filter fun y => !y == x).map f := by
        rw [List.filter_map]
        refine congrArg _ (List.filter_congr fun y hy => ?_)
        have same : f y = f x ↔ y = x :=
          ⟨h y (List.mem_cons_of_mem x hy) x List.mem_cons_self, congrArg f⟩
        simp [same]
      have rest := ih (h.subset fun y hy => List.mem_cons_of_mem x (List.mem_filter.1 hy).1)
      rw [List.map_cons, List.eraseDups_cons, others, rest, List.eraseDups_cons, List.map_cons]

theorem Apart.injOn_ite {g : String → String} {among : Set String} (h : Apart f names)
    (others : among.InjOn g) (mixed : ∀ x ∈ names, ∀ y ∈ among, y ∉ names → f x ≠ g y) :
    among.InjOn fun x => if x ∈ names then f x else g x := by
  intro x hx y hy equal
  dsimp only at equal
  split_ifs at equal with inX inY inY
  · exact h x inX y inY equal
  · exact absurd equal (mixed x inX y hy inY)
  · exact absurd equal.symm (mixed y inY x hx inX)
  · exact others hx hy equal

theorem Apart.exists_injective (h : Apart f names) :
    ∃ g : String → String, Function.Injective g ∧ ∀ x ∈ names, g x = f x := by
  -- The other names are made longer than every image.
  have injOn : Set.univ.InjOn fun x => if x ∈ names then f x else lengthen (names.map f) x := by
    refine h.injOn_ite (lengthen_injective _).injOn fun x hx y _ _ equal => ?_
    exact lengthen_notMem (names.map f) y (equal ▸ List.mem_map_of_mem hx)
  exact ⟨_, Set.injOn_univ.1 injOn, fun x hx => if_pos hx⟩

theorem Apart.idxOf_map {y : String} (h : Apart f (y :: names)) :
    (names.map f).idxOf (f y) = names.idxOf y := by
  induction names with
  | nil => rfl
  | cons x names ih =>
      have rest := ih (h.subset (List.cons_subset_cons y (List.subset_cons_self x names)))
      by_cases equal : x = y
      · simp [equal]
      · have differ : f x ≠ f y := fun same =>
          equal (h x (List.mem_cons_of_mem y List.mem_cons_self) y List.mem_cons_self same)
        simp [List.idxOf_cons, beq_false_of_ne equal, beq_false_of_ne differ, rest]

end

namespace Ty

def visits : Ty → List String
  | prim _ | foreign _ => []
  | var x => [x]
  | arrow d c => d.visits ++ c.visits
  | poly bound b => b.visits ++ bound

def rename (f : String → String) : Ty → Ty
  | prim p => prim p
  | var x => var (f x)
  | arrow d c => arrow (d.rename f) (c.rename f)
  | poly bound b => poly (bound.map f) (b.rename f)
  | foreign s => foreign s

variable {t u : Ty} {f g : String → String}

theorem visits_rename (f : String → String) (t : Ty) : (t.rename f).visits = t.visits.map f := by
  induction t with
  | prim | foreign | var => rfl
  | arrow d c ihd ihc => simp [rename, visits, ihd, ihc]
  | poly bound b ih => simp [rename, visits, ih]

theorem rename_rename (f g : String → String) (t : Ty) :
    (t.rename f).rename g = t.rename (g ∘ f) := by
  induction t with
  | prim | foreign | var => rfl
  | arrow d c ihd ihc => simp [rename, ihd, ihc]
  | poly bound b ih => simp [rename, ih]

theorem rename_congr (same : ∀ x ∈ t.visits, f x = g x) : t.rename f = t.rename g := by
  induction t with
  | prim | foreign => rfl
  | var x => rw [rename, rename, same x List.mem_cons_self]
  | arrow d c ihd ihc =>
      rw [rename, rename, ihd fun x hx => same x (List.mem_append_left _ hx),
        ihc fun x hx => same x (List.mem_append_right _ hx)]
  | poly bound b ih =>
      rw [rename, rename, ih fun x hx => same x (List.mem_append_left _ hx),
        List.map_congr_left fun x hx => same x (List.mem_append_right _ hx)]

end Ty

/-- The new name of `x` once the names of `seen` were met. -/
def nameAmong (seen : List String) (x : String) : String :=
  Supply.name (seen.eraseDups.idxOf x)

theorem nameAmong_append {seen : List String} {x : String} (h : x ∈ seen) (more : List String) :
    nameAmong (seen ++ more) x = nameAmong seen x := by
  rw [nameAmong, List.eraseDups_append, List.idxOf_append_of_mem (List.mem_eraseDups.2 h),
    nameAmong]

structure Renaming.Knows (r : Renaming) (seen : List String) : Prop where
  counter : r.counter = seen.eraseDups.length
  lookup : ∀ x, r.table.lookup x = if x ∈ seen then some (nameAmong seen x) else none

namespace Renaming

variable {r : Renaming} {seen : List String}

theorem knows_nil : Knows {} [] :=
  ⟨rfl, fun _ => rfl⟩

theorem name_of_lookup {x y : String} (found : r.table.lookup x = some y) :
    Renaming.name x r = (y, r) := by
  simp only [Renaming.name, bind, StateT.bind, get, getThe, MonadStateOf.get, StateT.get, pure,
    found]
  rfl

theorem name_of_lookup_none {x : String} (absent : r.table.lookup x = none) :
    Renaming.name x r = (Supply.name r.counter,
      { table := (x, Supply.name r.counter) :: r.table, counter := r.counter + 1 }) := by
  simp only [Renaming.name, bind, StateT.bind, get, getThe, MonadStateOf.get, StateT.get, pure,
    absent]
  rfl

theorem Knows.name (knows : r.Knows seen) (x : String) :
    ∃ r', Renaming.name x r = (nameAmong (seen ++ [x]) x, r') ∧ r'.Knows (seen ++ [x]) := by
  by_cases old : x ∈ seen
  · have found : r.table.lookup x = some (nameAmong (seen ++ [x]) x) := by
      rw [knows.lookup, if_pos old, nameAmong_append old]
    have same : (seen ++ [x]).eraseDups = seen.eraseDups := by
      simp [List.eraseDups_append, List.removeAll, old]
    refine ⟨r, name_of_lookup found, by rw [knows.counter, same], fun y => ?_⟩
    have members : y ∈ seen ++ [x] ↔ y ∈ seen := by
      simp only [List.mem_append, List.mem_singleton, or_iff_left_iff_imp]
      rintro rfl
      exact old
    simp only [knows.lookup, members, nameAmong, same]
  · have absent : r.table.lookup x = none := by rw [knows.lookup, if_neg old]
    have more : (seen ++ [x]).eraseDups = seen.eraseDups ++ [x] := by
      simp [List.eraseDups_append, List.removeAll, old, List.eraseDups_cons]
    have next : nameAmong (seen ++ [x]) x = Supply.name r.counter := by
      rw [nameAmong, more, List.idxOf_append_of_notMem fun h => old (List.mem_eraseDups.1 h),
        knows.counter, List.idxOf_cons_self, Nat.add_zero]
    refine ⟨_, by rw [next]; exact name_of_lookup_none absent, ?_, fun y => ?_⟩
    · rw [knows.counter, more, List.length_append, List.length_singleton]
    · by_cases same : y = x
      · subst same
        simp [next]
      · have members : y ∈ seen ++ [x] ↔ y ∈ seen := by simp [same]
        rw [List.lookup_cons, beq_false_of_ne same, if_congr members rfl rfl]
        change r.table.lookup y = _
        rw [knows.lookup]
        split
        · rw [nameAmong_append ‹_›]
        · rfl

theorem Knows.mapM (knows : r.Knows seen) (names : List String) :
    ∃ r', names.mapM Renaming.name r = (names.map (nameAmong (seen ++ names)), r') ∧
      r'.Knows (seen ++ names) := by
  induction names generalizing r seen with
  | nil => exact ⟨r, rfl, by rwa [List.append_nil]⟩
  | cons x names ih =>
      obtain ⟨first, named, knows⟩ := knows.name x
      obtain ⟨last, others, knows⟩ := ih knows
      have kept := nameAmong_append (List.mem_append_right seen (List.mem_singleton_self x)) names
      rw [List.append_assoc, List.singleton_append] at others knows kept
      refine ⟨last, ?_, knows⟩
      rw [List.mapM_cons, List.map_cons, kept]
      simp only [bind, StateT.bind, named, others]
      rfl

end Renaming

namespace Ty

variable {t u : Ty} {f g : String → String}

theorem renamed_of_knows {r : Renaming} {seen : List String} (knows : r.Knows seen) (t : Ty) :
    ∃ r', t.renamed r = (t.rename (nameAmong (seen ++ t.visits)), r') ∧
      r'.Knows (seen ++ t.visits) := by
  induction t generalizing r seen with
  | prim | foreign => exact ⟨r, rfl, by rwa [visits, List.append_nil]⟩
  | var x =>
      obtain ⟨r', named, knows⟩ := knows.name x
      refine ⟨r', ?_, knows⟩
      simp only [renamed, bind, StateT.bind, named]
      rfl
  | arrow d c ihd ihc =>
      obtain ⟨first, left, knows⟩ := ihd knows
      obtain ⟨last, right, knows⟩ := ihc knows
      have kept : d.rename (nameAmong (seen ++ d.visits)) =
          d.rename (nameAmong (seen ++ d.visits ++ c.visits)) :=
        rename_congr fun x hx => (nameAmong_append (List.mem_append_right seen hx) _).symm
      rw [kept] at left
      rw [visits, ← List.append_assoc]
      refine ⟨last, ?_, knows⟩
      simp only [renamed, bind, StateT.bind, left, right]
      rfl
  | poly bound b ih =>
      obtain ⟨first, body, knows⟩ := ih knows
      obtain ⟨last, names, knows⟩ := knows.mapM bound
      have kept : b.rename (nameAmong (seen ++ b.visits)) =
          b.rename (nameAmong (seen ++ b.visits ++ bound)) :=
        rename_congr fun x hx => (nameAmong_append (List.mem_append_right seen hx) _).symm
      rw [kept] at body
      rw [visits, ← List.append_assoc]
      refine ⟨last, ?_, knows⟩
      simp only [renamed, bind, StateT.bind, body, names]
      rfl

theorem normalize_eq (t : Ty) : t.normalize = t.rename (nameAmong t.visits) := by
  obtain ⟨_, renamed, -⟩ := renamed_of_knows Renaming.knows_nil t
  rw [normalize, renamed, List.nil_append]

theorem normalize_rename (apart : Apart f t.visits) : (t.rename f).normalize = t.normalize := by
  rw [normalize_eq, normalize_eq, rename_rename, visits_rename]
  refine rename_congr fun x hx => ?_
  have names : x :: t.visits.eraseDups ⊆ t.visits :=
    List.cons_subset.2 ⟨hx, fun _ => List.mem_eraseDups.1⟩
  rw [Function.comp_apply, nameAmong, apart.eraseDups_map, (apart.subset names).idxOf_map,
    nameAmong]

theorem rename_id (t : Ty) : t.rename id = t := by
  induction t with
  | prim | foreign | var => rfl
  | arrow d c ihd ihc => rw [rename, ihd, ihc]
  | poly bound b ih => rw [rename, ih, List.map_id]

theorem exists_rename_back (apart : Apart f t.visits) :
    ∃ g : String → String, Function.Injective g ∧ (t.rename f).rename g = t := by
  obtain ⟨wide, injective, same⟩ := apart.exists_injective
  have back : ∀ x ∈ t.visits, Function.invFun wide (f x) = x := by
    intro x hx
    rw [← same x hx]
    exact Function.leftInverse_invFun injective x
  have apartBack : Apart (Function.invFun wide) (t.visits.map f) := by
    intro y hy z hz equal
    obtain ⟨x, hx, rfl⟩ := List.mem_map.1 hy
    obtain ⟨w, hw, rfl⟩ := List.mem_map.1 hz
    rw [back x hx, back w hw] at equal
    rw [equal]
  obtain ⟨g, injectiveBack, sameBack⟩ := apartBack.exists_injective
  refine ⟨g, injectiveBack, ?_⟩
  have returns : ∀ x ∈ t.visits, (g ∘ f) x = id x := by
    intro x hx
    rw [Function.comp_apply, sameBack (f x) (List.mem_map_of_mem hx), back x hx, id]
  rw [rename_rename, rename_congr returns, rename_id]

theorem apart_normal (t : Ty) : Apart (nameAmong t.visits) t.visits := by
  intro x hx y _ equal
  exact (List.idxOf_inj (List.mem_eraseDups.2 hx)).1 (Supply.name_injective equal)

theorem normalize_normalize (t : Ty) : t.normalize.normalize = t.normalize := by
  rw [normalize_eq t, normalize_rename (apart_normal t), normalize_eq]

theorem exists_rename_normalize (t : Ty) :
    ∃ f : String → String, Function.Injective f ∧ t.rename f = t.normalize := by
  obtain ⟨f, injective, same⟩ := (apart_normal t).exists_injective
  exact ⟨f, injective, by rw [normalize_eq, rename_congr same]⟩

theorem normalize_eq_iff {l r : Ty} :
    l.normalize = r.normalize ↔ ∃ f : String → String, Function.Injective f ∧ l.rename f = r := by
  constructor
  · intro equal
    obtain ⟨f, injective, renamed⟩ := exists_rename_normalize l
    obtain ⟨g, injectiveBack, returned⟩ := exists_rename_back (apart_normal r)
    refine ⟨g ∘ f, injectiveBack.comp injective, ?_⟩
    calc l.rename (g ∘ f) = (l.rename f).rename g := (rename_rename f g l).symm
      _ = (r.rename (nameAmong r.visits)).rename g := by rw [renamed, equal, normalize_eq]
      _ = r := returned
  · rintro ⟨f, injective, rfl⟩
    exact (normalize_rename fun x _ y _ equal => injective equal).symm

/-- Two types have one normal form exactly if an injective renaming of all their names, quantified
or not, makes one the other. The normal form is such a renaming and is its own normal form. -/
theorem alphaEquiv_decides_renaming (l r t : Ty) :
    (l.alphaEquiv r = true ↔
      ∃ f : String → String, Function.Injective f ∧ l.rename f = r) ∧
    t.normalize.normalize = t.normalize ∧
    ∃ f : String → String, Function.Injective f ∧ t.rename f = t.normalize := by
  refine ⟨?_, normalize_normalize t, exists_rename_normalize t⟩
  rw [alphaEquiv, decide_eq_true_iff, normalize_eq_iff]

theorem visits_eq_of_mono (mono : t.Mono) : t.visits = t.occurrences := by
  induction t with
  | prim | var => rfl
  | arrow d c ihd ihc => rw [visits, occurrences, ihd mono.1, ihc mono.2]
  | poly | foreign => exact mono.elim

theorem rename_eq_assign (mono : t.Mono) (f : String → String) :
    t.rename f = t.assign fun x => .var (f x) := by
  induction t with
  | prim | var => rfl
  | arrow d c ihd ihc => rw [rename, assign, ihd mono.1, ihc mono.2]
  | poly | foreign => exact mono.elim

theorem alphaEquiv_of_instances {θ η : Assignment} (ht : t.Mono) (hu : u = t.assign θ)
    (back : t = u.assign η) : t.alphaEquiv u = true := by
  have returns : ∀ x ∈ t.occurrences, (θ x).assign η = .var x := by
    have round : t.assign (fun x => (θ x).assign η) = t.assign .var := by
      rw [← assign_assign ht, ← hu, ← back, assign_var]
    exact fun x hx => eq_of_assign_eq round hx
  have names : ∀ x ∈ t.occurrences, ∃ y, θ x = .var y := by
    intro x hx
    have shape := returns x hx
    cases value : θ x with
    | var y => exact ⟨y, rfl⟩
    | prim | arrow | poly | foreign => simp [value, assign] at shape
  choose! f named using names
  have renamed : u = t.rename f := by
    rw [hu, rename_eq_assign ht, assign_congr named]
  have apart : Apart f t.visits := by
    intro x hx y hy equal
    rw [visits_eq_of_mono ht] at hx hy
    have same : θ x = θ y := by rw [named x hx, named y hy, equal]
    have := returns y hy
    rw [← same, returns x hx] at this
    exact var.inj this
  rw [alphaEquiv, renamed, normalize_rename apart]
  exact decide_eq_true rfl

end Ty

end HindleyMilner

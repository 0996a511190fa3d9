import HindleyMilner.Proofs.Solve

/-!
Solving always ends, whatever the equations are and wherever it starts. The loop of a pass stops
after finitely many turns. The loop of rounds stops after at most two: reducing by the rules of the
first pass makes the two sides of every equation agree up to what stands below a quantifier, and on
such equations a pass finds no rule. It may still refuse them, and it does so exactly if there is a
quantified type anywhere, since a pass that finds nothing has seen none.
-/

namespace HindleyMilner

inductive Move (σ ρ : Type) where
  | again (next : σ)
  | stop (result : ρ)

/-- Started in the state `a`, the loop stops in its turn number `turns`, with `result`. -/
inductive Runs {σ ρ : Type} (move : σ → Move σ ρ) : σ → Nat → ρ → Prop
  | stop {a result} : move a = .stop result → Runs move a 1 result
  | again {a b turns result} :
      move a = .again b → Runs move b turns result → Runs move a (turns + 1) result

theorem Runs.unique {σ ρ : Type} {move : σ → Move σ ρ} {a : σ} {turns turns' : Nat}
    {result result' : ρ} (h : Runs move a turns result) (h' : Runs move a turns' result') :
    turns' = turns ∧ result' = result := by
  induction h generalizing turns' with
  | stop stops =>
      cases h' with
      | stop stops' =>
          rw [stops, Move.stop.injEq] at stops'
          exact ⟨rfl, stops'.symm⟩
      | again goes _ =>
          rw [stops] at goes
          cases goes
  | again goes _ ih =>
      cases h' with
      | stop stops =>
          rw [goes] at stops
          cases stops
      | again goes' rest =>
          rw [goes, Move.again.injEq] at goes'
          subst goes'
          have same := ih rest
          exact ⟨congrArg (· + 1) same.1, same.2⟩

namespace Ty

def quantifies : Ty → Bool
  | poly _ _ => true
  | arrow d c => d.quantifies || c.quantifies
  | prim _ | var _ | foreign _ => false

/-- The type with one base type for everything that a pass does not look into. -/
def outline : Ty → Ty
  | prim p => prim p
  | var x => var x
  | arrow d c => arrow d.outline c.outline
  | poly _ _ | foreign _ => prim ""

theorem Mono.quantifies {t : Ty} (mono : t.Mono) : t.quantifies = false := by
  induction t with
  | prim | var => rfl
  | arrow d c ihd ihc => simp [Ty.quantifies, ihd mono.1, ihc mono.2]
  | poly | foreign => exact mono.elim

theorem quantifies_subst {t : Ty} (h : t.quantifies = true) (x : String) (r : Ty) :
    (t.subst x r).quantifies = true := by
  induction t with
  | prim | var | foreign => simp [quantifies] at h
  | arrow d c ihd ihc =>
      simp only [quantifies, subst, Bool.or_eq_true] at h ⊢
      exact h.imp ihd ihc
  | poly bound b =>
      rw [subst]
      split <;> rfl

theorem outline_mono (t : Ty) : t.outline.Mono := by
  induction t with
  | prim | var | poly | foreign => trivial
  | arrow d c ihd ihc => exact ⟨ihd, ihc⟩

theorem outline_subst (t : Ty) (x : String) (r : Ty) :
    (t.subst x r).outline = t.outline.subst x r.outline := by
  induction t with
  | prim | foreign => rfl
  | var y =>
      by_cases hy : y = x
      · simp [subst, outline, hy]
      · simp [subst, outline, hy]
  | arrow d c ihd ihc => rw [subst, outline, outline, subst, ihd, ihc]
  | poly bound b =>
      rw [subst]
      split <;> rfl

theorem outline_eq_var {t : Ty} {x : String} : t.outline = var x ↔ t = var x := by
  cases t <;> simp [outline]

theorem mentions_outline {t : Ty} {x : String} (h : t.outline.mentions x = true) :
    t.mentions x = true := by
  induction t with
  | prim | var => exact h
  | arrow d c ihd ihc =>
      simp only [outline, mentions, Bool.or_eq_true] at h ⊢
      exact h.imp ihd ihc
  | poly | foreign => simp [outline, mentions] at h

end Ty

namespace Subst

def outline (s : Subst) : Subst :=
  s.map fun rule => (rule.1, rule.2.outline)

def push (s : Subst) (rule : Rule) : Subst :=
  rule :: s.map fun old => (old.1, old.2.subst rule.1 rule.2)

theorem outline_push (s : Subst) (rule : Rule) :
    (s.push rule).outline = s.outline.push (rule.1, rule.2.outline) := by
  simp [push, outline, Ty.outline_subst]

theorem outline_foldl_push (rules : List Rule) (s : Subst) :
    (rules.foldl push s).outline = (outline rules).foldl push s.outline := by
  induction rules generalizing s with
  | nil => rfl
  | cons rule rules ih => rw [List.foldl_cons, ih, outline_push]; rfl

theorem foldl_push_append (rules : List Rule) (s s' : Subst) :
    ∃ rest, rules.foldl push (s ++ s') = rules.foldl push s ++ rest := by
  induction rules generalizing s s' with
  | nil => exact ⟨s', rfl⟩
  | cons rule rules ih =>
      have parts : (s ++ s').push rule =
          s.push rule ++ s'.map fun old => (old.1, old.2.subst rule.1 rule.2) := by
        simp [push]
      rw [List.foldl_cons, List.foldl_cons, parts]
      exact ih _ _

theorem outline_foldl_subst (s : Subst) (t : Ty) :
    (s.foldl (fun u rule => u.subst rule.1 rule.2) t).outline =
      s.outline.foldl (fun u rule => u.subst rule.1 rule.2) t.outline := by
  induction s generalizing t with
  | nil => rfl
  | cons rule s ih => rw [List.foldl_cons, ih, Ty.outline_subst]; rfl

theorem quantifies_foldl_subst {t : Ty} (h : t.quantifies = true) (s : Subst) :
    (s.foldl (fun u rule => u.subst rule.1 rule.2) t).quantifies = true := by
  induction s generalizing t with
  | nil => exact h
  | cons rule s ih => exact ih (Ty.quantifies_subst h rule.1 rule.2)

end Subst

theorem Ty.replace_ok {t u : Ty} {x : String} {r : Ty} (h : t.replace x r = .ok u) :
    u = t.subst x r := by
  rw [Ty.replace] at h
  split at h
  · cases h
  · cases h
    rfl

theorem eq_map_of_mapM {α β : Type} {f : α → Except Fault β} {g : α → β}
    (h : ∀ a b, f a = .ok b → b = g a) {l : List α} {l' : List β} (maps : l.mapM f = .ok l') :
    l' = l.map g := by
  induction l generalizing l' with
  | nil =>
      cases maps
      rfl
  | cons a l ih =>
      rw [List.mapM_cons] at maps
      obtain ⟨b, first, maps⟩ := bind_eq_ok.1 maps
      obtain ⟨rest, others, maps⟩ := bind_eq_ok.1 maps
      cases maps
      rw [List.map_cons, h a b first, ih others]

theorem Subst.extend_ok {s s' : Subst} {x : String} {r : Ty} (h : s.extend x r = .ok s') :
    s' = s.push (x, r) := by
  obtain ⟨refined, maps, equal⟩ := bind_eq_ok.1 h
  cases equal
  rw [push]
  refine congrArg _ (eq_map_of_mapM (fun old new first => ?_) maps)
  obtain ⟨t, replaced, equal⟩ := bind_eq_ok.1 first
  cases equal
  rw [Ty.replace_ok replaced]

namespace Constraint

def outline (c : Constraint) : Constraint :=
  { c with left := c.left.outline, right := c.right.outline }

theorem reduce_ok {c d : Constraint} {s : Subst} (h : c.reduce s = .ok d) :
    d = { c with
      left := s.foldl (fun u rule => u.subst rule.1 rule.2) c.left
      right := s.foldl (fun u rule => u.subst rule.1 rule.2) c.right } := by
  induction s generalizing c with
  | nil =>
      cases h
      rfl
  | cons rule s ih =>
      rw [reduce, List.foldlM_cons] at h
      obtain ⟨next, replaced, rest⟩ := bind_eq_ok.1 h
      rw [replace] at replaced
      split at replaced
      · cases replaced
      · cases replaced
        exact ih rest

theorem outline_mono (c : Constraint) : c.outline.Mono :=
  ⟨c.left.outline_mono, c.right.outline_mono⟩

theorem outline_subst (c : Constraint) (x : String) (r : Ty) :
    (c.subst x r).outline = c.outline.subst x r.outline := by
  simp [outline, subst, Ty.outline_subst]

end Constraint

namespace Unify

def turn : List Constraint × List Rule →
    Move (List Constraint × List Rule) (Except Fault (List Rule))
  | ([], rules) => .stop (.ok rules)
  | (c :: rest, rules) =>
      match step c with
      | .discard => .again (rest, rules)
      | .split a b => .again (a :: b :: rest, rules)
      | .refuse fault => .stop (.error fault)
      | .bind x t =>
          match rest.findSome? (Constraint.obstacle x) with
          | some text => .stop (.error (.notAType text))
          | none => .again (substAll x t rest, rules ++ [(x, t)])

theorem runs_turn (cs : List Constraint) (rules : List Rule) :
    ∃ turns, Runs turn (cs, rules) turns ((pass cs).map (rules ++ ·)) := by
  fun_induction pass cs generalizing rules with
  | case1 => exact ⟨1, .stop (by simp [turn, Except.map])⟩
  | case2 c rest discarded ih =>
      obtain ⟨turns, runs⟩ := ih rules
      exact ⟨turns + 1, .again (by simp only [turn, discarded]) runs⟩
  | case3 c rest a b splits ih =>
      obtain ⟨turns, runs⟩ := ih rules
      exact ⟨turns + 1, .again (by simp only [turn, splits]) runs⟩
  | case4 c rest fault refused => exact ⟨1, .stop (by simp only [turn, refused, Except.map])⟩
  | case5 c rest x t binds text obstacle =>
      exact ⟨1, .stop (by simp only [turn, binds, obstacle, Except.map])⟩
  | case6 c rest x t binds clear ih =>
      obtain ⟨turns, runs⟩ := ih (rules ++ [(x, t)])
      refine ⟨turns + 1, .again (b := (substAll x t rest, rules ++ [(x, t)])) ?_ ?_⟩
      · simp only [turn, binds, clear]
      · cases found : pass (substAll x t rest) with
        | error fault =>
            rw [found] at runs
            exact runs
        | ok later =>
            rw [found] at runs
            simpa [Except.map, bind, Except.bind, pure, Except.pure] using runs

def round : Subst × List Constraint → Move (Subst × List Constraint) (Except Fault Subst)
  | (s, cs) =>
      match pass cs with
      | .error fault => .stop (.error fault)
      | .ok [] => .stop (.ok s)
      | .ok (rule :: rules) =>
          match merge s (rule :: rules) with
          | .error fault => .stop (.error fault)
          | .ok merged =>
              match cs.mapM fun c => c.reduce merged with
              | .error fault => .stop (.error fault)
              | .ok reduced => .again (merged, reduced)

theorem roundsFrom_succ (budget done : Nat) (s : Subst) (cs : List Constraint) :
    roundsFrom (budget + 1) done s cs =
      match round (s, cs) with
      | .stop result => result.map fun s' => ⟨s', done + 1⟩
      | .again (merged, reduced) => roundsFrom budget (done + 1) merged reduced := by
  rw [roundsFrom, round]
  cases pass cs with
  | error fault => rfl
  | ok rules =>
      cases rules with
      | nil => rfl
      | cons rule rules =>
          simp only [bind, Except.bind, List.isEmpty_cons, Bool.false_eq_true, ↓reduceIte]
          cases merge s (rule :: rules) with
          | error fault => rfl
          | ok merged =>
              dsimp only
              cases cs.mapM fun c => c.reduce merged with
              | error fault => rfl
              | ok reduced => rfl

theorem roundsFrom_of_runs {start : Subst × List Constraint} {rounds : Nat}
    {result : Except Fault Subst} (h : Runs round start rounds result) {budget : Nat}
    (le : rounds ≤ budget) (done : Nat) :
    roundsFrom budget done start.1 start.2 = result.map fun s => ⟨s, done + rounds⟩ := by
  induction h generalizing budget done with
  | stop stops =>
      obtain ⟨budget, rfl⟩ := Nat.exists_eq_add_of_le' le
      rw [roundsFrom_succ, stops]
  | @again _ _ turns _ goes _ ih =>
      obtain ⟨budget, rfl⟩ := Nat.exists_eq_add_of_le' (Nat.one_le_of_lt le)
      rw [roundsFrom_succ, goes]
      have shift : done + 1 + turns = done + (turns + 1) := by omega
      rw [← shift]
      exact ih (Nat.le_of_succ_le_succ le) (done + 1)

theorem merge_ok {s s' : Subst} {rules : List Rule} (h : merge s rules = .ok s') :
    s' = rules.foldl Subst.push s := by
  induction rules generalizing s with
  | nil =>
      cases h
      rfl
  | cons rule rules ih =>
      rw [merge, List.foldlM_cons] at h
      obtain ⟨first, extended, rest⟩ := bind_eq_ok.1 h
      rw [List.foldl_cons, ← Subst.extend_ok extended]
      exact ih rest

theorem step_eq_discard {c : Constraint} (h : step c = .discard) :
    c.left = c.right ∧ ((∃ p, c.right = .prim p) ∨ ∃ x, c.right = .var x) := by
  have same := step_discard h
  refine ⟨same, ?_⟩
  obtain ⟨left, right, origin⟩ := c
  obtain rfl : left = right := same
  cases left with
  | prim p => exact .inl ⟨p, rfl⟩
  | var x => exact .inr ⟨x, rfl⟩
  | arrow | poly | foreign => cases h

theorem step_var_left (x : String) (t : Ty) (origin : Option Location) :
    step ⟨.var x, t, origin⟩ = solveFor x t origin := by
  cases t <;> rfl

theorem step_var_right {t : Ty} (h : ∀ y, t ≠ .var y) (x : String) (origin : Option Location) :
    step ⟨t, .var x, origin⟩ = solveFor x t origin := by
  cases t with
  | var y => exact absurd rfl (h y)
  | prim | arrow | poly | foreign => rfl

theorem solveFor_outline {x y : String} {t u : Ty} {origin : Option Location}
    (h : solveFor x t origin = .bind y u) :
    solveFor x t.outline origin = .bind y u.outline := by
  unfold solveFor at h
  split at h
  · cases h
  · rename_i differ
    split at h
    · cases h
    · rename_i acyclic
      cases h
      rw [solveFor, if_neg (mt Ty.outline_eq_var.1 differ), if_neg (mt Ty.mentions_outline acyclic)]

theorem step_outline_discard {c : Constraint} (h : step c = .discard) :
    step c.outline = .discard := by
  obtain ⟨left, right, origin⟩ := c
  obtain ⟨same, ⟨p, flat⟩ | ⟨x, flat⟩⟩ := step_eq_discard h
  · obtain rfl : right = .prim p := flat
    obtain rfl : left = .prim p := same
    simp [step, Constraint.outline, Ty.outline]
  · obtain rfl : right = .var x := flat
    obtain rfl : left = .var x := same
    simp [step, Constraint.outline, Ty.outline, solveFor]

theorem step_outline_split {c a b : Constraint} (h : step c = .split a b) :
    step c.outline = .split a.outline b.outline := by
  obtain ⟨d₁, c₁, d₂, c₂, hl, hr, rfl, rfl⟩ := step_eq_split h
  simp [step, Constraint.outline, Ty.outline, hl, hr]

theorem step_outline_bind {c : Constraint} {x : String} {t : Ty} (h : step c = .bind x t) :
    step c.outline = .bind x t.outline := by
  obtain ⟨left, right, origin⟩ := c
  change step ⟨left.outline, right.outline, origin⟩ = _
  by_cases placeholder : ∃ y, left = .var y
  · obtain ⟨y, rfl⟩ := placeholder
    rw [step_var_left] at h
    rw [Ty.outline, step_var_left]
    exact solveFor_outline h
  · have other : ∀ y, left ≠ .var y := fun y equal => placeholder ⟨y, equal⟩
    obtain ⟨equal, -⟩ | ⟨-, equal⟩ := step_bind h
    · exact absurd equal (other x)
    · obtain rfl : right = .var x := equal
      rw [step_var_right other] at h
      rw [Ty.outline.eq_2, step_var_right fun y => mt Ty.outline_eq_var.1 (other y)]
      exact solveFor_outline h

theorem pass_discard {c : Constraint} (h : step c = .discard) (rest : List Constraint) :
    pass (c :: rest) = pass rest := by
  rw [pass]
  split <;> simp_all

theorem pass_split {c a b : Constraint} (h : step c = .split a b) (rest : List Constraint) :
    pass (c :: rest) = pass (a :: b :: rest) := by
  rw [pass]
  split <;> simp_all

theorem pass_refuse {c : Constraint} {fault : Fault} (h : step c = .refuse fault)
    (rest : List Constraint) : pass (c :: rest) = .error fault := by
  rw [pass]
  split <;> simp_all

theorem pass_obstacle {c : Constraint} {x : String} {t : Ty} (h : step c = .bind x t)
    {rest : List Constraint} {text : String}
    (found : rest.findSome? (Constraint.obstacle x) = some text) :
    pass (c :: rest) = .error (.notAType text) := by
  rw [pass]
  split <;> simp_all

theorem pass_bind {c : Constraint} {x : String} {t : Ty} (h : step c = .bind x t)
    {rest : List Constraint} (clear : rest.findSome? (Constraint.obstacle x) = none) :
    pass (c :: rest) = (pass (substAll x t rest) >>= fun rules => pure ((x, t) :: rules)) := by
  rw [pass]
  split <;> simp_all only [reduceCtorEq, Step.bind.injEq]

/-- A pass looks at outlines only: the outline of a pass that gets through is such a pass. -/
theorem pass_outline {cs : List Constraint} {rules : List Rule} (h : pass cs = .ok rules) :
    pass (cs.map Constraint.outline) = .ok (Subst.outline rules) := by
  fun_induction pass cs generalizing rules with
  | case1 =>
      cases h
      rw [List.map_nil, pass]
      rfl
  | case2 c rest discarded ih =>
      rw [List.map_cons, pass_discard (step_outline_discard discarded)]
      exact ih h
  | case3 c rest a b splits ih =>
      rw [List.map_cons, pass_split (step_outline_split splits)]
      exact ih h
  | case4 => cases h
  | case5 => cases h
  | case6 c rest x t binds _ ih =>
      obtain ⟨found, ok, equal⟩ := bind_eq_ok.1 h
      cases equal
      have clear : (rest.map Constraint.outline).findSome? (Constraint.obstacle x) = none :=
        findSome?_obstacle (List.forall_mem_map.2 fun c _ => c.outline_mono) x
      have pushed : substAll x t.outline (rest.map Constraint.outline) =
          (substAll x t rest).map Constraint.outline := by
        simp [substAll, Constraint.outline_subst]
      rw [List.map_cons, pass_bind (step_outline_bind binds) clear, pushed]
      exact bind_eq_ok.2 ⟨_, ih ok, rfl⟩

theorem mono_of_pass_nil {cs : List Constraint} (h : pass cs = .ok []) : ∀ c ∈ cs, c.Mono := by
  fun_induction pass cs with
  | case1 => simp
  | case2 c rest discarded ih =>
      obtain ⟨same, flat⟩ := step_eq_discard discarded
      have mono : c.right.Mono := by
        obtain ⟨p, flat⟩ | ⟨x, flat⟩ := flat
        · rw [flat]
          trivial
        · rw [flat]
          trivial
      rw [List.forall_mem_cons]
      exact ⟨⟨same ▸ mono, mono⟩, ih h⟩
  | case3 c rest a b splits ih =>
      obtain ⟨d₁, c₁, d₂, c₂, hl, hr, rfl, rfl⟩ := step_eq_split splits
      have parts := ih h
      simp only [List.forall_mem_cons, Constraint.Mono] at parts ⊢
      rw [hl, hr]
      exact ⟨⟨⟨parts.1.1, parts.2.1.1⟩, parts.1.2, parts.2.1.2⟩, parts.2.2⟩
  | case4 => cases h
  | case5 => cases h
  | case6 =>
      obtain ⟨found, -, equal⟩ := bind_eq_ok.1 h
      cases equal

theorem pass_of_outline_eq {cs : List Constraint} {rules : List Rule}
    (same : ∀ c ∈ cs, c.left.outline = c.right.outline) (h : pass cs = .ok rules) :
    rules = [] := by
  have outlined : pass (cs.map Constraint.outline) = .ok [] :=
    pass_of_equal (List.forall_mem_map.2 fun c _ => c.outline_mono) (List.forall_mem_map.2 same)
  rw [pass_outline h, Except.ok.injEq] at outlined
  exact List.map_eq_nil_iff.1 outlined

theorem outline_eq_of_reduced {s merged : Subst} {cs : List Constraint} {rules : List Rule}
    (found : pass cs = .ok rules) (merges : merge s rules = .ok merged) {c : Constraint}
    (hc : c ∈ cs) :
    (merged.foldl (fun u rule => u.subst rule.1 rule.2) c.left).outline =
      (merged.foldl (fun u rule => u.subst rule.1 rule.2) c.right).outline := by
  have outlined := pass_outline found
  have mono : ∀ d ∈ cs.map Constraint.outline, d.Mono :=
    List.forall_mem_map.2 fun d _ => d.outline_mono
  obtain ⟨own, ownMerges, solved, -, values⟩ :=
    merge_triangular .nil (pass_triangular mono outlined) (by simp [Subst.names])
  have value : own.value = outcome (Subst.outline rules) := by
    funext x
    rw [values x, Subst.value_nil, Ty.assign]
  have agree : c.left.outline.assign own.value = c.right.outline.assign own.value := by
    rw [value]
    exact outcome_unifies mono outlined c.outline (List.mem_map_of_mem hc)
  -- The rules of the pass stand before what they were merged with, so they act first.
  obtain ⟨rest, split⟩ := Subst.foldl_push_append (Subst.outline rules) [] s.outline
  have parts : merged.outline = own ++ rest := by
    rw [merge_ok merges, Subst.outline_foldl_push, merge_ok ownMerges, ← split, List.nil_append]
  rw [Subst.outline_foldl_subst, Subst.outline_foldl_subst, parts, List.foldl_append,
    List.foldl_append, solved.foldl_subst c.left.outline_mono,
    solved.foldl_subst c.right.outline_mono, agree]

def Quantified (cs : List Constraint) : Prop :=
  ∃ c ∈ cs, c.left.quantifies = true ∨ c.right.quantifies = true

instance (cs : List Constraint) : Decidable (Quantified cs) :=
  inferInstanceAs (Decidable (∃ c ∈ cs, _))

theorem round_eq_stop {s s' : Subst} {cs : List Constraint}
    (h : round (s, cs) = .stop (.ok s')) : pass cs = .ok [] ∧ s' = s := by
  simp only [round] at h
  split at h
  · cases h
  · cases h
    exact ⟨‹_›, rfl⟩
  · split at h
    · cases h
    · split at h <;> cases h

theorem round_eq_again {s merged : Subst} {cs reduced : List Constraint}
    (h : round (s, cs) = .again (merged, reduced)) :
    ∃ rules, pass cs = .ok rules ∧ rules ≠ [] ∧ merge s rules = .ok merged ∧
      reduced = cs.map fun c => { c with
        left := merged.foldl (fun u rule => u.subst rule.1 rule.2) c.left
        right := merged.foldl (fun u rule => u.subst rule.1 rule.2) c.right } := by
  simp only [round] at h
  split at h
  · cases h
  · cases h
  · rename_i rule rules found
    split at h
    · cases h
    · rename_i merges
      split at h
      · cases h
      · rename_i reduces
        cases h
        exact ⟨_, found, List.cons_ne_nil rule rules, merges,
          eq_map_of_mapM (fun _ _ => Constraint.reduce_ok) reduces⟩

theorem no_rule_after_round {s merged : Subst} {cs reduced : List Constraint}
    (h : round (s, cs) = .again (merged, reduced)) {rules : List Rule}
    (found : pass reduced = .ok rules) : rules = [] := by
  obtain ⟨rules', found', -, merges, rfl⟩ := round_eq_again h
  refine pass_of_outline_eq ?_ found
  exact List.forall_mem_map.2 fun c hc => outline_eq_of_reduced found' merges hc

theorem round_of_round {s : Subst} {cs : List Constraint} {next : Subst × List Constraint}
    (h : round (s, cs) = .again next) : ∃ result, round next = .stop result := by
  obtain ⟨merged, reduced⟩ := next
  cases second : round (merged, reduced) with
  | stop result => exact ⟨result, rfl⟩
  | again third =>
      obtain ⟨rules, found, nonempty, -⟩ := round_eq_again second
      exact absurd (no_rule_after_round h found) nonempty

theorem Quantified.kept {s merged : Subst} {cs reduced : List Constraint} (h : Quantified cs)
    (again : round (s, cs) = .again (merged, reduced)) : Quantified reduced := by
  obtain ⟨-, -, -, -, rfl⟩ := round_eq_again again
  obtain ⟨c, hc, quantified⟩ := h
  refine ⟨_, List.mem_map_of_mem hc, ?_⟩
  exact quantified.imp (fun left => Subst.quantifies_foldl_subst left merged)
    fun right => Subst.quantifies_foldl_subst right merged

theorem Quantified.not_stop {s s' : Subst} {cs : List Constraint} (h : Quantified cs) :
    round (s, cs) ≠ .stop (.ok s') := by
  intro stops
  obtain ⟨c, hc, quantified⟩ := h
  have mono := mono_of_pass_nil (round_eq_stop stops).1 c hc
  simp [mono.1.quantifies, mono.2.quantifies] at quantified

theorem Quantified.runs {start : Subst × List Constraint} {rounds : Nat}
    {result : Except Fault Subst} (h : Runs round start rounds result)
    (quantified : Quantified start.2) : ∃ fault, result = .error fault := by
  induction h with
  | @stop _ result stops =>
      cases result with
      | error fault => exact ⟨fault, rfl⟩
      | ok s => exact absurd stops quantified.not_stop
  | again goes _ ih => exact ih (quantified.kept goes)

/-- Solving ends: the loop of every pass stops, and the loop of rounds stops after one round if the
first pass finds nothing, and after at most two in any case. It stops with a fault if a quantified
type stands anywhere in the equations. -/
theorem solving_ends (s : Subst) (cs : List Constraint) :
    (∃ turns, Runs turn (cs, []) turns (pass cs)) ∧
    ∃ rounds result, Runs round (s, cs) rounds result ∧
      (∀ rounds' result', Runs round (s, cs) rounds' result' →
        rounds' = rounds ∧ result' = result) ∧
      solveFrom s cs = result.map (fun s' => ⟨s', rounds⟩) ∧
      rounds ≤ 2 ∧ (pass cs = .ok [] → rounds = 1 ∧ result = .ok s) ∧
      (Quantified cs → ∃ fault, result = .error fault) := by
  constructor
  · obtain ⟨turns, runs⟩ := runs_turn cs []
    refine ⟨turns, ?_⟩
    cases found : pass cs with
    | error fault => simpa [found, Except.map] using runs
    | ok rules => simpa [found, Except.map] using runs
  · have ends : ∃ rounds result, Runs round (s, cs) rounds result ∧ rounds ≤ 2 := by
      cases first : round (s, cs) with
      | stop result => exact ⟨1, result, .stop first, by omega⟩
      | again next =>
          obtain ⟨result, second⟩ := round_of_round first
          exact ⟨2, result, .again first (.stop second), by omega⟩
    obtain ⟨rounds, result, runs, le⟩ := ends
    refine ⟨rounds, result, runs, fun _ _ => runs.unique, ?_, le, fun none => ?_,
      Quantified.runs runs⟩
    · rw [solveFrom, roundsFrom_of_runs runs (Nat.le_trans le (Nat.le_add_left 2 _)), Nat.zero_add]
    · have settled : Runs round (s, cs) 1 (.ok s) := .stop (by simp only [round, none])
      exact settled.unique runs

end Unify

end HindleyMilner

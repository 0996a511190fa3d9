import HindleyMilner.Proofs.Alpha
import HindleyMilner.Proofs.Context

/-!
A plain `let` is typed as its body with the value put in for the name. The replacement renames the
binders it passes when they would capture a free identifier of the value. In a context, every use of
the name has a type of the value of its own, and the scheme that the `let` gives to the name has
exactly these types as instances. The two expressions then have the same types in every context, so
either can stand for the other inside a program.
-/

namespace HindleyMilner

inductive Image (ν : Type) where
  | name (name : Text)
  | expr (e : Expr ν)

namespace Image

variable {ν : Type}

def toExpr (note : ν) : Image ν → Expr ν
  | name y => .ident note y
  | expr e => e

def freeNames : Image ν → List Text
  | name y => [y]
  | expr e => e.freeNames

theorem freeNames_toExpr (note : ν) (image : Image ν) :
    (image.toExpr note).freeNames = image.freeNames := by
  cases image with
  | name y => simp [toExpr, freeNames, Expr.freeNames, Expr.loose]
  | expr e => rfl

end Image

abbrev Images (ν : Type) := Text → Image ν

namespace Images

variable {ν : Type}

def incoming (f : Images ν) (name : Text) (scope : List Text) : List Text :=
  (scope.filter (· ≠ name)).flatMap fun y => (f y).freeNames

/-- The binder `name`, under another name if it would capture an incoming identifier. -/
def binder (f : Images ν) (name : Text) (scope : List Text) : Text :=
  if name ∈ f.incoming name scope then lengthenWith 'a' (f.incoming name scope) name else name

def bind (f : Images ν) (name other : Text) : Images ν :=
  fun y => if y = name then .name other else f y

variable {f : Images ν} {name x : Text} {scope : List Text}

theorem bind_self (f : Images ν) (name other : Text) : f.bind name other name = .name other :=
  if_pos rfl

theorem bind_ne (ne : x ≠ name) (other : Text) : f.bind name other x = f x :=
  if_neg ne

theorem binder_notMem (f : Images ν) (name : Text) (hx : x ∈ scope) (ne : x ≠ name) :
    f.binder name scope ∉ (f x).freeNames := by
  have comes : (f x).freeNames ⊆ f.incoming name scope := fun y hy =>
    List.mem_flatMap.2 ⟨x, List.mem_filter.2 ⟨hx, by simpa using ne⟩, hy⟩
  rw [binder]
  split
  · exact fun mem => lengthenWith_notMem _ _ name (comes mem)
  · exact fun mem => ‹name ∉ _› (comes mem)

theorem mem_freeNames_bind {names : List Text} (sub : names ⊆ scope) {y : Text} :
    (∃ x ∈ names, y ∈ (f.bind name (f.binder name scope) x).freeNames) ∧
        y ≠ f.binder name scope ↔
      ∃ x, (x ∈ names ∧ x ≠ name) ∧ y ∈ (f x).freeNames := by
  constructor
  · rintro ⟨⟨x, hx, hy⟩, free⟩
    by_cases same : x = name
    · rw [same, bind_self, Image.freeNames, List.mem_singleton] at hy
      exact absurd hy free
    · rw [bind_ne same] at hy
      exact ⟨x, ⟨hx, same⟩, hy⟩
  · rintro ⟨x, ⟨hx, ne⟩, hy⟩
    refine ⟨⟨x, hx, by rwa [bind_ne ne]⟩, ?_⟩
    rintro rfl
    exact binder_notMem f name (sub hx) ne hy

end Images

namespace Expr

variable {ν : Type}

/-- Puts the images for the free identifiers, without capture. -/
def subst (f : Images ν) : Expr ν → Expr ν
  | int note value => int note value
  | bool note value => bool note value
  | str note value => str note value
  | ident note name => (f name).toExpr note
  | func note parameter body =>
      let parameter' := f.binder parameter body.freeNames
      func note parameter' (body.subst (f.bind parameter parameter'))
  | not note operand => not note (operand.subst f)
  | binary note op left right => binary note op (left.subst f) (right.subst f)
  | cond note test yes no => cond note (test.subst f) (yes.subst f) (no.subst f)
  | call note callee argument => call note (callee.subst f) (argument.subst f)
  | letIn note name recursive value body =>
      let scope := if recursive then value.freeNames ++ body.freeNames else body.freeNames
      let name' := f.binder name scope
      let inner := f.bind name name'
      letIn note name' recursive (value.subst (if recursive then inner else f)) (body.subst inner)

theorem mem_freeNames_subst {e : Expr ν} {f : Images ν} {y : Text} :
    y ∈ (e.subst f).freeNames ↔ ∃ x ∈ e.freeNames, y ∈ (f x).freeNames := by
  induction e generalizing f with
  | int | bool | str => simp [subst, freeNames, loose]
  | ident note name => simp [subst, Image.freeNames_toExpr, freeNames_ident]
  | func note parameter body ih =>
      simp only [subst, mem_freeNames_func, ih]
      exact Images.mem_freeNames_bind (List.Subset.refl _)
  | not note operand ih => simpa only [subst, freeNames_not] using ih
  | binary note op left right ihl ihr =>
      simp only [subst, freeNames_binary, List.mem_append, ihl, ihr, or_and_right, exists_or]
  | cond note test yes no iht ihy ihn =>
      simp only [subst, freeNames_cond, List.mem_append, iht, ihy, ihn, or_and_right, exists_or]
  | call note callee argument ihc iha =>
      simp only [subst, freeNames_call, List.mem_append, ihc, iha, or_and_right, exists_or]
  | letIn note name recursive value body ihv ihb =>
      cases recursive with
      | false =>
          simp only [subst, mem_freeNames_letIn, ihv, ihb, Bool.false_eq_true, if_false,
            false_implies, and_true, Images.mem_freeNames_bind (List.Subset.refl _), or_and_right,
            exists_or]
      | true =>
          simp only [subst, mem_freeNames_letIn, ihv, ihb, if_true, true_implies,
            Images.mem_freeNames_bind (List.subset_append_left _ _),
            Images.mem_freeNames_bind (List.subset_append_right _ _), or_and_right, exists_or]

def inline (body : Expr ν) (name : Text) (value : Expr ν) : Expr ν :=
  body.subst fun y => if y = name then .expr value else .name y

end Expr

section

variable {D : Env} {image : Image (Option Location)} {f : Images (Option Location)} {name x : Text}
  {scope : List Text} {t : Ty}

theorem hasType_toExpr {place place' : Option Location} :
    HasType D (image.toExpr place) t ↔ HasType D (image.toExpr place') t := by
  cases image with
  | name y => rw [Image.toExpr, Image.toExpr, hasType_ident, hasType_ident]
  | expr e => rfl

theorem hasType_bind {place : Option Location} (schemes : D.Schemes) (hx : x ∈ scope)
    (ne : x ≠ name) {s : Ty} (scheme : s.Scheme) :
    HasType (D.extend (f.binder name scope) s)
      ((f.bind name (f.binder name scope) x).toExpr place) t ↔
        HasType D ((f x).toExpr place) t := by
  rw [Images.bind_ne ne]
  refine hasType_congr (schemes.extend _ scheme) schemes fun y hy => ?_
  have other : y ≠ f.binder name scope := by
    rintro rfl
    rw [Image.freeNames_toExpr] at hy
    exact Images.binder_notMem f name hx ne hy
  rw [Env.get?_extend_ne other]

end

/-- In `D`, the images have the types that their identifiers have in `G`. -/
structure Fits (f : Images (Option Location)) (names : List Text) (G D : Env) : Prop where
  schemes : D.Schemes
  free : ∀ y, y ∈ G.free ↔ y ∈ D.free
  types : ∀ x ∈ names, ∀ t, HasType G (.ident none x) t ↔ HasType D ((f x).toExpr none) t

namespace Fits

variable {f : Images (Option Location)} {names : List Text} {G D : Env}

theorem part {fewer : List Text} (h : Fits f names G D) (sub : fewer ⊆ names) : Fits f fewer G D :=
  ⟨h.schemes, h.free, fun x hx => h.types x (sub hx)⟩

theorem bind {scope inside : List Text} {s : Ty} (h : Fits f names G D) (name : Text)
    (sub : inside ⊆ scope) (outer : ∀ x ∈ inside, x ≠ name → x ∈ names) (scheme : s.Scheme) :
    Fits (f.bind name (f.binder name scope)) inside (G.extend name s)
      (D.extend (f.binder name scope) s) := by
  refine ⟨h.schemes.extend _ scheme, fun y => ?_, fun x hx t => ?_⟩
  · rw [Env.mem_free_extend, Env.mem_free_extend, h.free]
  · by_cases same : x = name
    · subst same
      rw [Images.bind_self, Image.toExpr, hasType_ident, hasType_ident, Env.get?_extend_self,
        Env.get?_extend_self]
    · rw [hasType_bind h.schemes (sub hx) same scheme, ← h.types x (outer x hx same) t,
        hasType_ident, hasType_ident, Env.get?_extend_ne same]

end Fits

theorem hasType_subst {e : Program} {f : Images (Option Location)} {G D : Env} {t : Ty}
    (fits : Fits f e.freeNames G D) : HasType G e t ↔ HasType D (e.subst f) t := by
  induction e generalizing f G D t with
  | int => rw [Expr.subst, hasType_int, hasType_int]
  | bool => rw [Expr.subst, hasType_bool, hasType_bool]
  | str => rw [Expr.subst, hasType_str, hasType_str]
  | ident place name =>
      have same := fits.types name (by simp [Expr.freeNames_ident]) t
      rw [hasType_ident] at same
      rw [Expr.subst, hasType_ident, same]
      exact hasType_toExpr
  | func place parameter body ih =>
      rw [Expr.subst, hasType_func, hasType_func]
      refine exists_congr fun d => exists_congr fun c => and_congr_right fun _ =>
        and_congr_right fun mono => ih (fits.bind _ (List.Subset.refl _) ?_ mono.scheme)
      exact fun x hx ne => Expr.mem_freeNames_func.2 ⟨hx, ne⟩
  | not place operand ih =>
      rw [Expr.subst, hasType_not, hasType_not, ih fits]
  | binary place op left right ihl ihr =>
      rw [Expr.subst, hasType_binary, hasType_binary]
      refine exists_congr fun u => and_congr_right fun _ => and_congr
        (ihl (fits.part ?_)) (ihr (fits.part ?_)) <;> simp [Expr.freeNames_binary]
  | cond place test yes no iht ihy ihn =>
      rw [Expr.subst, hasType_cond, hasType_cond]
      refine and_congr (iht (fits.part ?_))
        (and_congr (ihy (fits.part ?_)) (ihn (fits.part ?_))) <;> simp [Expr.freeNames_cond]
  | call place callee argument ihc iha =>
      rw [Expr.subst, hasType_call, hasType_call]
      refine exists_congr fun d => and_congr (ihc (fits.part ?_)) (iha (fits.part ?_)) <;>
        simp [Expr.freeNames_call]
  | letIn place name recursive value body ihv ihb =>
      cases recursive with
      | false =>
          have inner : Fits f value.freeNames G D :=
            fits.part fun x hx => Expr.mem_freeNames_letIn.2 (.inl ⟨hx, by simp⟩)
          simp only [Expr.subst, Bool.false_eq_true, if_false, hasType_letPlain]
          refine exists_congr fun v => exists_congr fun scheme => ?_
          rw [ihv inner]
          refine and_congr_right fun typed => ?_
          have closures : Closure G v scheme ↔ Closure D v scheme :=
            ⟨fun h => h.congr fits.free, fun h => h.congr fun y => (fits.free y).symm⟩
          rw [closures]
          refine and_congr_right fun closure => ihb (fits.bind _ (List.Subset.refl _) ?_
            (closure.scheme (typed.mono fits.schemes)))
          exact fun x hx ne => Expr.mem_freeNames_letIn.2 (.inr ⟨hx, ne⟩)
      | true =>
          simp only [Expr.subst, if_true, hasType_letRec]
          refine exists_congr fun self => exists_congr fun v => and_congr_right fun mono => ?_
          have inner := fits.bind name (List.subset_append_left _ body.freeNames)
            (fun x hx ne => Expr.mem_freeNames_letIn.2 (.inl ⟨hx, fun _ => ne⟩)) mono.scheme
          rw [ihv inner]
          refine and_congr_right fun typed => ihb (fits.bind name (List.subset_append_right _ _) ?_
            (typed.mono inner.schemes).scheme)
          exact fun x hx ne => Expr.mem_freeNames_letIn.2 (.inr ⟨hx, ne⟩)

theorem exists_hasType_image {e : Program} {f : Images (Option Location)} {D : Env} {t : Ty}
    (h : HasType D (e.subst f) t) (schemes : D.Schemes) {x : Text} (hx : x ∈ e.freeNames) :
    ∃ u, HasType D ((f x).toExpr none) u := by
  induction e generalizing f D t with
  | int | bool | str => simp [Expr.freeNames, Expr.loose] at hx
  | ident place name =>
      obtain rfl : x = name := by simpa [Expr.freeNames_ident] using hx
      exact ⟨t, hasType_toExpr.1 h⟩
  | func place parameter body ih =>
      obtain ⟨hx, ne⟩ := Expr.mem_freeNames_func.1 hx
      obtain ⟨d, c, -, mono, typed⟩ := hasType_func.1 h
      obtain ⟨u, image⟩ := ih typed (schemes.extend _ mono.scheme) hx
      exact ⟨u, (hasType_bind schemes hx ne mono.scheme).1 image⟩
  | not place operand ih => exact ih (hasType_not.1 h).2 schemes hx
  | binary place op left right ihl ihr =>
      obtain ⟨u, -, typedLeft, typedRight⟩ := hasType_binary.1 h
      rw [Expr.freeNames_binary, List.mem_append] at hx
      rcases hx with hx | hx
      · exact ihl typedLeft schemes hx
      · exact ihr typedRight schemes hx
  | cond place test yes no iht ihy ihn =>
      obtain ⟨typedTest, typedYes, typedNo⟩ := hasType_cond.1 h
      rw [Expr.freeNames_cond, List.mem_append, List.mem_append] at hx
      rcases hx with (hx | hx) | hx
      · exact iht typedTest schemes hx
      · exact ihy typedYes schemes hx
      · exact ihn typedNo schemes hx
  | call place callee argument ihc iha =>
      obtain ⟨d, typedCallee, typedArgument⟩ := hasType_call.1 h
      rw [Expr.freeNames_call, List.mem_append] at hx
      rcases hx with hx | hx
      · exact ihc typedCallee schemes hx
      · exact iha typedArgument schemes hx
  | letIn place name recursive value body ihv ihb =>
      rw [Expr.mem_freeNames_letIn] at hx
      cases recursive with
      | false =>
          obtain ⟨v, scheme, typed, closure, rest⟩ := hasType_letPlain.1 h
          have isScheme := closure.scheme (typed.mono schemes)
          rcases hx with ⟨hx, -⟩ | ⟨hx, ne⟩
          · exact ihv typed schemes hx
          · obtain ⟨u, image⟩ := ihb rest (schemes.extend _ isScheme) hx
            exact ⟨u, (hasType_bind schemes hx ne isScheme).1 image⟩
      | true =>
          obtain ⟨self, v, mono, typed, rest⟩ := hasType_letRec.1 h
          have isMono := typed.mono (schemes.extend _ mono.scheme)
          rcases hx with ⟨hx, ne⟩ | ⟨hx, ne⟩
          · obtain ⟨u, image⟩ := ihv typed (schemes.extend _ mono.scheme) hx
            refine ⟨u, (hasType_bind schemes ?_ (ne rfl) mono.scheme).1 image⟩
            exact List.mem_append_left _ hx
          · obtain ⟨u, image⟩ := ihb rest (schemes.extend _ isMono.scheme) hx
            refine ⟨u, (hasType_bind schemes ?_ ne isMono.scheme).1 image⟩
            exact List.mem_append_right _ hx

section

variable {G : Env} {place : Option Location} {name : Text} {value body : Program} {t scheme : Ty}

theorem Closure.occurrences_subset (closure : Closure G t scheme) :
    scheme.occurrences ⊆ G.free := by
  intro x hx
  obtain ⟨core, outside⟩ := Ty.mem_occurrences.1 hx
  rw [closure.1] at core
  by_contra notFree
  exact outside ((closure.mem_quantified x).2 ⟨core, notFree⟩)

theorem fits_inline (schemes : G.Schemes) (closure : Closure G t scheme)
    (instances : ∀ u, Instance scheme u ↔ HasType G value u) (names : List Text) :
    Fits (fun y => if y = name then .expr value else .name y) names (G.extend name scheme) G := by
  refine ⟨schemes, fun y => ?_, fun x _ u => ?_⟩
  · rw [Env.mem_free_extend]
    exact or_iff_right_of_imp fun hy => closure.occurrences_subset hy
  · by_cases same : x = name
    · subst same
      simp [hasType_ident, Env.get?_extend_self, Image.toExpr, instances]
    · simp [hasType_ident, Env.get?_extend_ne same, same, Image.toExpr]

theorem hasType_inline (schemes : G.Schemes) (used : name ∈ body.freeNames) {u : Ty} :
    HasType G (.letIn place name false value body) u ↔ HasType G (body.inline name value) u := by
  constructor
  · intro h
    obtain ⟨v, narrow, typed, narrowed, rest⟩ := hasType_letPlain.1 h
    obtain ⟨t, scheme, -, closure, instances⟩ := typed.exists_scheme schemes
    refine (hasType_subst (fits_inline schemes closure instances _)).1 ?_
    -- The scheme of this typing may be too narrow: all its instances are types of the value.
    have wider : Covers body .var (G.extend name narrow) (G.extend name scheme) := by
      have here : Covers (.letIn place name false value body) .var G G := .of_get?_eq fun _ _ => rfl
      refine here.extend (fun y hy ne => Expr.mem_freeNames_letIn.2 (.inr ⟨hy, ne⟩))
        fun ρ hρ fixed => (instances _).2 ?_
      exact typed.instance schemes narrowed (instance_assign hρ fixed)
    have isScheme := narrowed.scheme (typed.mono schemes)
    have moved := rest.covered (schemes.extend name isScheme) Assignment.mono_var wider
    rwa [Ty.assign_var] at moved
  · intro h
    obtain ⟨v, typed⟩ := exists_hasType_image h schemes used
    simp only [if_true, Image.toExpr] at typed
    obtain ⟨t, scheme, typed, closure, instances⟩ := typed.exists_scheme schemes
    exact .letPlain typed closure
      ((hasType_subst (fits_inline schemes closure instances _)).2 h)

theorem mem_freeNames_inline (used : name ∈ body.freeNames) {y : Text} :
    y ∈ (body.inline name value).freeNames ↔
      y ∈ (Expr.letIn place name false value body).freeNames := by
  rw [Expr.inline, Expr.mem_freeNames_subst, Expr.mem_freeNames_letIn]
  constructor
  · rintro ⟨x, hx, hy⟩
    by_cases same : x = name
    · simp only [same, if_true, Image.freeNames] at hy
      exact .inl ⟨hy, by simp⟩
    · simp only [same, if_false, Image.freeNames, List.mem_singleton] at hy
      exact .inr (hy ▸ ⟨hx, same⟩)
  · rintro (⟨hy, -⟩ | ⟨hy, ne⟩)
    · exact ⟨name, used, by simpa [Image.freeNames] using hy⟩
    · exact ⟨y, hy, by simp [ne, Image.freeNames]⟩

end

inductive Frame (ν : Type) where
  | func (note : ν) (parameter : Text)
  | not (note : ν)
  | binaryLeft (note : ν) (op : Operator) (right : Expr ν)
  | binaryRight (note : ν) (op : Operator) (left : Expr ν)
  | condTest (note : ν) (yes no : Expr ν)
  | condYes (note : ν) (test no : Expr ν)
  | condNo (note : ν) (test yes : Expr ν)
  | callCallee (note : ν) (argument : Expr ν)
  | callArgument (note : ν) (callee : Expr ν)
  | letValue (note : ν) (name : Text) (recursive : Bool) (body : Expr ν)
  | letBody (note : ν) (name : Text) (recursive : Bool) (value : Expr ν)

def Frame.plug {ν : Type} (e : Expr ν) : Frame ν → Expr ν
  | func note parameter => .func note parameter e
  | not note => .not note e
  | binaryLeft note op right => .binary note op e right
  | binaryRight note op left => .binary note op left e
  | condTest note yes no => .cond note e yes no
  | condYes note test no => .cond note test e no
  | condNo note test yes => .cond note test yes e
  | callCallee note argument => .call note e argument
  | callArgument note callee => .call note callee e
  | letValue note name recursive body => .letIn note name recursive e body
  | letBody note name recursive value => .letIn note name recursive value e

/-- The way from the whole expression, outermost frame first, down to a part. -/
abbrev Surrounding (ν : Type) := List (Frame ν)

def Surrounding.plug {ν : Type} (C : Surrounding ν) (e : Expr ν) : Expr ν :=
  C.foldr (fun frame e => frame.plug e) e

/-- The expressions have the same free identifiers, and the same types in every context. -/
structure Interchangeable (e e' : Program) : Prop where
  free : ∀ y, y ∈ e'.freeNames ↔ y ∈ e.freeNames
  types : ∀ G : Env, G.Schemes → ∀ t, HasType G e t ↔ HasType G e' t

theorem exists_infer_of_types {e e' : Program} {t : Ty}
    (types : ∀ u, HasType [] e u → HasType [] e' u) (inferred : e.infer = .ok t) :
    ∃ t', e'.infer = .ok t' ∧ ∃ θ : Assignment, t = t'.assign θ := by
  have typed := hasType_of_infer inferred Assignment.mono_var
  rw [Ty.assign_var] at typed
  obtain ⟨t', inferred', θ, -, inst⟩ := exists_infer_of_hasType (types t typed)
  exact ⟨t', inferred', θ, inst⟩

namespace Interchangeable

variable {e e' : Program}

theorem frame (h : Interchangeable e e') (frame : Frame (Option Location)) :
    Interchangeable (frame.plug e) (frame.plug e') := by
  constructor
  · intro y
    cases frame <;> simp [Frame.plug, Expr.mem_freeNames_func, Expr.mem_freeNames_letIn,
      Expr.freeNames_not, Expr.freeNames_binary, Expr.freeNames_cond, Expr.freeNames_call, h.free]
  · intro G schemes t
    have same := h.types G schemes
    cases frame with
    | func place parameter =>
        rw [Frame.plug, Frame.plug, hasType_func, hasType_func]
        exact exists_congr fun d => exists_congr fun c => and_congr_right fun _ =>
          and_congr_right fun mono => h.types _ (schemes.extend _ mono.scheme) c
    | not | binaryLeft | binaryRight | condTest | condYes | condNo | callCallee | callArgument =>
        simp only [Frame.plug, hasType_not, hasType_binary, hasType_cond, hasType_call, same]
    | letValue place name recursive body =>
        cases recursive with
        | false => simp only [Frame.plug, hasType_letPlain, same]
        | true =>
            simp only [Frame.plug, hasType_letRec]
            exact exists_congr fun self => exists_congr fun v => and_congr_right fun mono =>
              and_congr_left fun _ => h.types _ (schemes.extend _ mono.scheme) v
    | letBody place name recursive value =>
        cases recursive with
        | false =>
            simp only [Frame.plug, hasType_letPlain]
            exact exists_congr fun v => exists_congr fun scheme => and_congr_right fun typed =>
              and_congr_right fun closure =>
                h.types _ (schemes.extend _ (closure.scheme (typed.mono schemes))) t
        | true =>
            simp only [Frame.plug, hasType_letRec]
            refine exists_congr fun self => exists_congr fun v => and_congr_right fun mono =>
              and_congr_right fun typed => h.types _ (schemes.extend _ ?_) t
            exact (typed.mono (schemes.extend _ mono.scheme)).scheme

theorem plug (h : Interchangeable e e') (C : Surrounding (Option Location)) :
    Interchangeable (C.plug e) (C.plug e') := by
  induction C with
  | nil => exact h
  | cons outer _ ih => exact ih.frame outer

theorem infer (h : Interchangeable e e') :
    ((∃ t, e.infer = .ok t) ↔ ∃ t, e'.infer = .ok t) ∧
      ∀ t t', e.infer = .ok t → e'.infer = .ok t' → t.alphaEquiv t' = true := by
  have same := h.types [] .nil
  refine ⟨⟨?_, ?_⟩, fun t t' ht ht' => ?_⟩
  · rintro ⟨t, ht⟩
    obtain ⟨t', ht', -⟩ := exists_infer_of_types (fun u => (same u).1) ht
    exact ⟨t', ht'⟩
  · rintro ⟨t, ht⟩
    obtain ⟨t', ht', -⟩ := exists_infer_of_types (fun u => (same u).2) ht
    exact ⟨t', ht'⟩
  · obtain ⟨_, again', θ, forth⟩ := exists_infer_of_types (fun u => (same u).1) ht
    cases ht'.symm.trans again'
    obtain ⟨_, again, η, back⟩ := exists_infer_of_types (fun u => (same u).2) ht'
    cases ht.symm.trans again
    exact Ty.alphaEquiv_of_instances (infer_mono ht) back forth

end Interchangeable

/-- Wherever a plain `let` that uses its name stands in a program, putting the value in for the name
keeps the free identifiers, the outcome of inference, and the inferred type up to the names of its
placeholders. -/
theorem let_is_inlining (C : Surrounding (Option Location)) (place : Option Location) (name : Text)
    (value body : Program) (used : name ∈ body.freeNames) :
    let bound : Program := C.plug (.letIn place name false value body)
    let inlined : Program := C.plug (body.inline name value)
    (∀ y, y ∈ inlined.freeNames ↔ y ∈ bound.freeNames) ∧
      ((∃ t, bound.infer = .ok t) ↔ ∃ t, inlined.infer = .ok t) ∧
      ∀ t t', bound.infer = .ok t → inlined.infer = .ok t' → t.alphaEquiv t' = true := by
  have same : Interchangeable (.letIn place name false value body) (body.inline name value) :=
    ⟨fun _ => mem_freeNames_inline used, fun _ schemes _ => hasType_inline schemes used⟩
  exact ⟨(same.plug C).free, (same.plug C).infer⟩

/-- In `fun y -> let k = fun x -> y in fun y -> k (k y)`, the inner `y` is renamed. -/
theorem let_is_inlining_shadowed :
    let value : Program := .func none "x" (.ident none "y")
    let body : Program := .func none "y"
      (.call none (.ident none "k") (.call none (.ident none "k") (.ident none "y")))
    ("k" : Text) ∈ body.freeNames ∧
      body.inline "k" value =
        .func none "aay" (.call none value (.call none value (.ident none "aay"))) ∧
      ∃ t t', Program.infer (.func none "y" (.letIn none "k" false value body)) = .ok t ∧
        Program.infer (.func none "y" (body.inline "k" value)) = .ok t' ∧
        t.alphaEquiv t' = true := by
  intro value body
  have used : ("k" : Text) ∈ body.freeNames := by decide
  have bound : Unify.solve [⟨.var "a", .var "d", none⟩] = .ok ⟨[("a", .var "d")], 2⟩ := by cbv
  have whole : Unify.solve [⟨.var "a", .var "d", none⟩,
      ⟨.arrow (.var "h") (.var "d"), .arrow (.var "e") (.var "i"), none⟩,
      ⟨.arrow (.var "g") (.var "d"), .arrow (.var "i") (.var "j"), none⟩,
      ⟨.var "j", .var "f", none⟩, ⟨.arrow (.var "e") (.var "f"), .var "b", none⟩] =
      .ok ⟨[("b", .arrow (.var "e") (.var "f")), ("j", .var "f"), ("i", .var "f"), ("g", .var "f"),
        ("d", .var "f"), ("h", .var "e"), ("a", .var "f")], 2⟩ := by
    cbv
  have inner : generate (Env.extend [] "y" (Supply.placeholder 0))
      (.letIn none "k" false value body) { counter := 2 } = .ok _ _ :=
    generate_letIn rfl rfl bound rfl rfl
  have inferred := Program.infer_ok.2 ⟨_, _, _, .func (generates_of_ok inner), whole, rfl⟩
  obtain ⟨-, succeeds, same⟩ := let_is_inlining [.func none "y"] none "k" value body used
  obtain ⟨t', inferred'⟩ := succeeds.1 ⟨_, inferred⟩
  exact ⟨used, by decide, _, t', inferred, inferred', same _ t' inferred inferred'⟩

end HindleyMilner

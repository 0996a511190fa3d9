import HindleyMilner.Expr.Decoding
import HindleyMilner.Expr.Encoding
import HindleyMilner.Proofs.ReadBack

/-!
A program is loaded back from its own text. Decoding looks fields up by their keys, so fields that
no kind of node reads may stand between those of the program. Places come back only as far as they
are written: with the name of the file that is loaded, and without an offset.
-/

namespace HindleyMilner

theorem Kind.ofName?_name (kind : Kind) : ofName? kind.name = some kind := by
  cases kind <;> rfl

theorem Operator.ofName?_name (op : Operator) : ofName? op.name = some op := by
  cases op <;> rfl

theorem Coordinate.ofJson?_toJson (c : Coordinate) : ofJson? c.toJson = some c := by
  cases c <;> rfl

theorem Location.ofJson?_toJson {place : Location} {file : Option Text}
    (start : place.offset = 0) (same : place.file = file) :
    ofJson? file place.toJson = some place := by
  subst same
  simp only [toJson, ofJson?, Coordinate.ofJson?_toJson, Option.bind_eq_bind, Option.bind_some,
    Option.pure_def, ← start]

namespace Scope

variable {scope : Scope} {key : Text} {reading : Except LoadError Program}

theorem integer_of_lookup {value : Int}
    (found : scope.fields.lookup key = some ⟨.int value, reading⟩) :
    scope.integer key = .ok value := by
  rw [integer, field, found]
  rfl

theorem boolean_of_lookup {value : Bool}
    (found : scope.fields.lookup key = some ⟨.bool value, reading⟩) :
    scope.boolean key = .ok value := by
  rw [boolean, field, found]
  rfl

theorem text_of_lookup {value : Text}
    (found : scope.fields.lookup key = some ⟨.str value, reading⟩) :
    scope.text key = .ok value := by
  rw [text, field, found]
  rfl

theorem flag_of_lookup {value : Bool}
    (found : scope.fields.lookup key = some ⟨.bool value, reading⟩) :
    scope.flag key = .ok value := by
  rw [flag, found, Option.isSome_some, if_pos rfl, boolean_of_lookup found]

theorem operator_of_lookup {op : Operator}
    (found : scope.fields.lookup ("operator" : Text) = some ⟨.str op.name, reading⟩) :
    scope.operator = .ok op := by
  have present : scope.field "operator" = .ok ⟨.str op.name, reading⟩ := by rw [field, found]
  simp only [operator, present, bind, Except.bind, Operator.ofName?_name]
  rfl

theorem child_of_lookup {value : Json} (found : scope.fields.lookup key = some ⟨value, reading⟩) :
    scope.child key = reading := by
  rw [child, field, found]
  rfl

end Scope

namespace Program

variable {file : Option Text}

theorem lookup_readings (fields : List (Text × Json)) (key : Text) :
    (readings file fields).lookup key =
      (fields.lookup key).map fun value => ⟨value, ofJson file value⟩ := by
  induction fields with
  | nil => rfl
  | cons field fields ih =>
      obtain ⟨name, value⟩ := field
      simp only [readings, List.lookup_cons, ih]
      cases key == name <;> rfl

section

variable {kind : Kind} {place : Option Location} {own extra children : List (Text × Json)}

theorem lookup_node (silent : ∀ key : Text, key ≠ "type" → extra.lookup key = none) {key : Text}
    (other : key ≠ "type") :
    (readings file (Expr.heading kind place ++ own ++ extra ++ children)).lookup key =
      ((Expr.heading kind place ++ (own ++ children)).lookup key).map fun value =>
        ⟨value, ofJson file value⟩ := by
  rw [lookup_readings]
  simp only [List.lookup_append, silent key other, Option.or_none, Option.or_assoc]

theorem kindOf_node (silent : ∀ key : Text, key ≠ "type" → extra.lookup key = none) :
    kindOf (readings file (Expr.heading kind place ++ own ++ extra ++ children)) = .ok kind := by
  rw [kindOf, lookup_node silent (by decide)]
  simp [Expr.heading, Kind.ofName?_name]

theorem placeOf_node (places : ∀ p, place = some p → p.offset = 0 ∧ p.file = file)
    (silent : ∀ key : Text, key ≠ "type" → extra.lookup key = none)
    (absent : (own ++ children).lookup ("location" : Text) = none) :
    placeOf file (readings file (Expr.heading kind place ++ own ++ extra ++ children)) =
      .ok place := by
  rw [placeOf, lookup_node silent (by decide)]
  cases place with
  | none => simp [Expr.heading, List.lookup_cons, absent]
  | some place =>
      obtain ⟨start, same⟩ := places place rfl
      have found := Location.ofJson?_toJson start same
      rw [Location.toJson] at found
      simp [Expr.heading, List.lookup_cons, Location.toJson, found]

theorem ofJson_node {e : Program} (places : ∀ p, place = some p → p.offset = 0 ∧ p.file = file)
    (silent : ∀ key : Text, key ≠ "type" → extra.lookup key = none)
    (absent : (own ++ children).lookup ("location" : Text) = none)
    (decodes : ∀ fields, (∀ key : Text, key ∉ [("node" : Text), "location", "type"] →
      fields.lookup key =
        ((own ++ children).lookup key).map fun value => ⟨value, ofJson file value⟩) →
      Scope.program ⟨kind, place, fields⟩ = .ok e) :
    ofJson file (Expr.node kind place own extra children) = .ok e := by
  rw [Expr.node, ofJson, ofReadings, kindOf_node silent]
  simp only [bind, Except.bind, placeOf_node places silent absent]
  refine decodes _ fun key other => ?_
  simp only [List.mem_cons, List.not_mem_nil, or_false, not_or] at other
  obtain ⟨node, location, type⟩ := other
  rw [lookup_node silent type]
  cases place <;> simp [Expr.heading, List.lookup_cons, beq_false_of_ne node,
    beq_false_of_ne location]

end

theorem ofJson_encode {ν : Type} {place : ν → Option Location} {extra : ν → List (Text × Json)}
    (silent : ∀ note, ∀ key : Text, key ≠ "type" → (extra note).lookup key = none) (e : Expr ν)
    (places : ∀ note ∈ e.notes, ∀ p, place note = some p → p.offset = 0 ∧ p.file = file) :
    ofJson file (e.encode place extra) = .ok (e.map place) := by
  induction e with
  | int note value =>
      refine ofJson_node (places note List.mem_cons_self) (silent note) rfl fun fields found => ?_
      simp only [Scope.program]
      rw [Scope.integer_of_lookup (found "value" (by decide))]
      rfl
  | bool note value =>
      refine ofJson_node (places note List.mem_cons_self) (silent note) rfl fun fields found => ?_
      simp only [Scope.program]
      rw [Scope.boolean_of_lookup (found "value" (by decide))]
      rfl
  | str note value =>
      refine ofJson_node (places note List.mem_cons_self) (silent note) rfl fun fields found => ?_
      simp only [Scope.program]
      rw [Scope.text_of_lookup (found "value" (by decide))]
      rfl
  | ident note name =>
      refine ofJson_node (places note List.mem_cons_self) (silent note) rfl fun fields found => ?_
      simp only [Scope.program]
      rw [Scope.text_of_lookup (found "name" (by decide))]
      rfl
  | func note parameter body ih =>
      have inside := ih fun n hn => places n (by simp [Expr.notes, hn])
      refine ofJson_node (places note List.mem_cons_self) (silent note) rfl fun fields found => ?_
      simp only [Scope.program]
      rw [Scope.text_of_lookup (found "parameter" (by decide)),
        Scope.child_of_lookup (found "body" (by decide)), inside]
      rfl
  | not note operand ih =>
      have inside := ih fun n hn => places n (by simp [Expr.notes, hn])
      refine ofJson_node (places note List.mem_cons_self) (silent note) rfl fun fields found => ?_
      simp only [Scope.program]
      rw [Scope.child_of_lookup (found "operand" (by decide)), inside]
      rfl
  | binary note op left right ihl ihr =>
      have first := ihl fun n hn => places n (by simp [Expr.notes, hn])
      have second := ihr fun n hn => places n (by simp [Expr.notes, hn])
      refine ofJson_node (places note List.mem_cons_self) (silent note) rfl fun fields found => ?_
      simp only [Scope.program]
      rw [Scope.operator_of_lookup (found "operator" (by decide)),
        Scope.child_of_lookup (found "left" (by decide)), first,
        Scope.child_of_lookup (found "right" (by decide)), second]
      rfl
  | cond note test yes no iht ihy ihn =>
      have first := iht fun n hn => places n (by simp [Expr.notes, hn])
      have second := ihy fun n hn => places n (by simp [Expr.notes, hn])
      have third := ihn fun n hn => places n (by simp [Expr.notes, hn])
      refine ofJson_node (places note List.mem_cons_self) (silent note) rfl fun fields found => ?_
      simp only [Scope.program]
      rw [Scope.child_of_lookup (found "condition" (by decide)), first,
        Scope.child_of_lookup (found "then" (by decide)), second,
        Scope.child_of_lookup (found "else" (by decide)), third]
      rfl
  | call note callee argument ihc iha =>
      have first := ihc fun n hn => places n (by simp [Expr.notes, hn])
      have second := iha fun n hn => places n (by simp [Expr.notes, hn])
      refine ofJson_node (places note List.mem_cons_self) (silent note) rfl fun fields found => ?_
      simp only [Scope.program]
      rw [Scope.child_of_lookup (found "callee" (by decide)), first,
        Scope.child_of_lookup (found "argument" (by decide)), second]
      rfl
  | letIn note name recursive value body ihv ihb =>
      have first := ihv fun n hn => places n (by simp [Expr.notes, hn])
      have second := ihb fun n hn => places n (by simp [Expr.notes, hn])
      refine ofJson_node (places note List.mem_cons_self) (silent note) rfl fun fields found => ?_
      simp only [Scope.program]
      rw [Scope.text_of_lookup (found "name" (by decide)),
        Scope.flag_of_lookup (found "recursive" (by decide)),
        Scope.child_of_lookup (found "value" (by decide)), first,
        Scope.child_of_lookup (found "body" (by decide)), second]
      rfl

end Program

theorem Expr.map_id {ν : Type} (e : Expr ν) : e.map id = e := by
  induction e with
  | int | bool | str | ident => rfl
  | func _ _ _ ih | not _ _ ih => rw [map, ih]; rfl
  | binary _ _ _ _ ihl ihr | call _ _ _ ihl ihr | letIn _ _ _ _ _ ihl ihr => rw [map, ihl, ihr]; rfl
  | cond _ _ _ _ iht ihy ihn => rw [map, iht, ihy, ihn]; rfl

def Coordinate.integers : Coordinate → List Int
  | number value => [value]
  | flag _ => []

def Location.integers (place : Location) : List Int :=
  place.line.integers ++ place.column.integers

/-- The numbers of a program, those of its places included. -/
def Program.integers (e : Program) : List Int :=
  e.numerals ++ (e.notes.filterMap id).flatMap Location.integers

theorem Program.mem_integers {e : Program} {n : Int} :
    n ∈ e.integers ↔ n ∈ e.numerals ∨ ∃ p, some p ∈ e.notes ∧ n ∈ p.integers := by
  simp [integers]

theorem Program.integers_place {e : Program} {p : Location} (same : e.note = some p) :
    p.integers ⊆ e.integers := by
  have noted : e.note ∈ e.notes := by cases e <;> exact List.mem_cons_self
  exact fun n hn => mem_integers.2 (.inr ⟨p, same ▸ noted, hn⟩)

theorem Program.integers_child {e child : Program} (h : child ∈ e.children) :
    child.integers ⊆ e.integers := by
  obtain ⟨-, -, numerals, notes⟩ := Expr.parts_of_mem_children h
  intro n hn
  rcases mem_integers.1 hn with hn | ⟨p, hp, hn⟩
  · exact mem_integers.2 (.inl (numerals hn))
  · exact mem_integers.2 (.inr ⟨p, notes hp, hn⟩)

section

variable {digits : Nat}

theorem Coordinate.legible_toJson {c : Coordinate} (short : ∀ n ∈ c.integers, Json.Short digits n) :
    c.toJson.Legible digits := by
  cases c with
  | number value => exact short value List.mem_cons_self
  | flag value => trivial

theorem Location.legible_toJson {place : Location}
    (short : ∀ n ∈ place.integers, Json.Short digits n) : place.toJson.Legible digits := by
  refine ⟨Coordinate.legible_toJson fun n hn => short n ?_,
    Coordinate.legible_toJson fun n hn => short n ?_, trivial⟩
  · exact List.mem_append_left _ hn
  · exact List.mem_append_right _ hn

theorem Expr.legible_node {kind : Kind} {place : Option Location}
    {own children : List (Text × Json)}
    (short : ∀ p, place = some p → ∀ n ∈ p.integers, Json.Short digits n)
    (distinct : (("node" : Text) :: ("location" : Text) :: (own ++ children).map Prod.fst).Nodup)
    (legible : Json.LegibleFields digits (own ++ children)) :
    (node kind place own [] children).Legible digits := by
  rw [node, List.append_nil, List.append_assoc]
  have named := Text.joined_ofString kind.name
  cases place with
  | none =>
      refine ⟨?_, rfl, named, legible⟩
      exact distinct.sublist (by simp [heading])
  | some place =>
      exact ⟨distinct, rfl, named, rfl, Location.legible_toJson (short place rfl), legible⟩

theorem Program.short_place {e : Program} (short : ∀ n ∈ e.integers, Json.Short digits n) :
    ∀ p, e.note = some p → ∀ n ∈ p.integers, Json.Short digits n :=
  fun _ same n hn => short n (integers_place same hn)

theorem Program.short_child {e child : Program} (short : ∀ n ∈ e.integers, Json.Short digits n)
    (h : child ∈ e.children) : ∀ n ∈ child.integers, Json.Short digits n :=
  fun n hn => short n (integers_child h hn)

theorem Program.whole_child {e child : Program} (whole : ∀ s ∈ e.names ++ e.strings, s.joined = s)
    (h : child ∈ e.children) : ∀ s ∈ child.names ++ child.strings, s.joined = s := by
  obtain ⟨names, strings, -⟩ := Expr.parts_of_mem_children h
  obtain ⟨wholeNames, wholeStrings⟩ := List.forall_mem_append.1 whole
  exact List.forall_mem_append.2
    ⟨fun s hs => wholeNames s (names hs), fun s hs => wholeStrings s (strings hs)⟩

theorem Program.legible_toJson (e : Program) (short : ∀ n ∈ e.integers, Json.Short digits n)
    (whole : ∀ s ∈ e.names ++ e.strings, s.joined = s) : e.toJson.Legible digits := by
  induction e with
  | int place value =>
      refine Expr.legible_node (short_place short) (by simp) ?_
      exact ⟨rfl, short value (mem_integers.2 (.inl List.mem_cons_self)), trivial⟩
  | bool => exact Expr.legible_node (short_place short) (by simp) ⟨rfl, trivial, trivial⟩
  | str _ text | ident _ text =>
      have joined := whole text List.mem_cons_self
      exact Expr.legible_node (short_place short) (by simp) ⟨rfl, joined, trivial⟩
  | func place parameter body ih =>
      have name := whole parameter List.mem_cons_self
      have inside := ih (short_child short (by simp [Expr.children]))
        (whole_child whole (by simp [Expr.children]))
      exact Expr.legible_node (short_place short) (by simp) ⟨rfl, name, rfl, inside, trivial⟩
  | not place operand ih =>
      have inside := ih (short_child short (by simp [Expr.children]))
        (whole_child whole (by simp [Expr.children]))
      exact Expr.legible_node (short_place short) (by simp) ⟨rfl, inside, trivial⟩
  | binary place op left right ihl ihr =>
      have name := Text.joined_ofString op.name
      have first := ihl (short_child short (by simp [Expr.children]))
        (whole_child whole (by simp [Expr.children]))
      have second := ihr (short_child short (by simp [Expr.children]))
        (whole_child whole (by simp [Expr.children]))
      exact Expr.legible_node (short_place short) (by simp)
        ⟨rfl, name, rfl, first, rfl, second, trivial⟩
  | cond place test yes no iht ihy ihn =>
      have first := iht (short_child short (by simp [Expr.children]))
        (whole_child whole (by simp [Expr.children]))
      have second := ihy (short_child short (by simp [Expr.children]))
        (whole_child whole (by simp [Expr.children]))
      have third := ihn (short_child short (by simp [Expr.children]))
        (whole_child whole (by simp [Expr.children]))
      exact Expr.legible_node (short_place short) (by simp)
        ⟨rfl, first, rfl, second, rfl, third, trivial⟩
  | call place callee argument ihc iha =>
      have first := ihc (short_child short (by simp [Expr.children]))
        (whole_child whole (by simp [Expr.children]))
      have second := iha (short_child short (by simp [Expr.children]))
        (whole_child whole (by simp [Expr.children]))
      exact Expr.legible_node (short_place short) (by simp) ⟨rfl, first, rfl, second, trivial⟩
  | letIn place name recursive value body ihv ihb =>
      have named := whole name List.mem_cons_self
      have first := ihv (short_child short (by simp [Expr.children]))
        (whole_child whole (by simp [Expr.children]))
      have second := ihb (short_child short (by simp [Expr.children]))
        (whole_child whole (by simp [Expr.children]))
      exact Expr.legible_node (short_place short) (by simp)
        ⟨rfl, named, rfl, trivial, rfl, first, rfl, second, trivial⟩

end

/-- In every layout, a program is loaded back from its text, with all its places: if they have no
offset and the name of the file, if numbers and depth keep to the limits of the reader, and if no
two halves in a name or literal make a pair. -/
theorem Program.text_loads_back (e : Program) (file : Option Text) (indent : Option Int)
    (depth : Nat) (places : ∀ p, some p ∈ e.notes → p.offset = 0 ∧ p.file = file)
    (numerals : ∀ n ∈ e.integers, (Nat.toDigits 10 n.natAbs).length ≤ 4300)
    (whole : ∀ s ∈ e.names ++ e.strings, s.joined = s) (fits : e.toJson.depth ≤ depth) :
    ∃ text, Json.render (.ofIndent indent) e.toJson = .ok text ∧
      Program.ofText { depth } file text = .ok e := by
  have legible : e.toJson.Legible Text.digitLimit := legible_toJson e numerals whole
  obtain ⟨text, written, read⟩ := Json.read_render (.ofIndent indent) e.toJson legible fits
  have decoded : ofJson file e.toJson = .ok (e.map id) :=
    ofJson_encode (fun _ _ _ => rfl) e fun place hp p same => places p (same ▸ hp)
  refine ⟨text, written, ?_⟩
  simp only [ofText, read, decoded, Expr.map_id]

theorem Program.text_loads_back_escapes :
    let file : Option Text := some "main.ml"
    let place : Location := { line := .number 3, column := .flag true, file }
    let text : Text := "\"\n\t\\é😀"
    let e : Program := .letIn (some place) "f" true (.str none (.low 0 :: text))
      (.binary (some place) .lessEqual (.int none (-120)) (.not none (.bool none false)))
    (∀ p, some p ∈ e.notes → p.offset = 0 ∧ p.file = file) ∧
      (∀ n ∈ Program.integers e, (Nat.toDigits 10 n.natAbs).length ≤ 4300) ∧
      (∀ s ∈ e.names ++ e.strings, s.joined = s) ∧ (Program.toJson e).depth ≤ 4 ∧
      ∃ text, Json.render (.ofIndent (some (-1))) (Program.toJson e) = .ok text ∧
        Program.ofText { depth := 4 } file text = .ok e := by
  intro file place text e
  have places : ∀ p, some p ∈ e.notes → p.offset = 0 ∧ p.file = file := by
    simp [e, place, Expr.notes]
  have numerals : ∀ n ∈ Program.integers e, (Nat.toDigits 10 n.natAbs).length ≤ 4300 := by
    decide
  have whole : ∀ s ∈ e.names ++ e.strings, s.joined = s := by
    decide
  have fits : (Program.toJson e).depth ≤ 4 := by
    decide
  exact ⟨places, numerals, whole, fits, text_loads_back e _ _ 4 places numerals whole fits⟩

end HindleyMilner

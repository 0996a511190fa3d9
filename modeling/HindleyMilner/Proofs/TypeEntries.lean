import HindleyMilner.Proofs.Annotation
import HindleyMilner.Proofs.NodeGrammar

/-!
The encoding of an annotated program is that of the program with one more field in every node, which
holds the text of the type. Without these fields it is the encoding of the program, in the same
order, and decoding does not look at them.
-/

namespace HindleyMilner

namespace Json

mutual

def without (key : Text) : Json → Json
  | arr items => arr (withoutItems key items)
  | obj fields => obj (withoutFields key fields)
  | scalar => scalar

def withoutItems (key : Text) : List Json → List Json
  | [] => []
  | item :: items => item.without key :: withoutItems key items

def withoutFields (key : Text) : List (Text × Json) → List (Text × Json)
  | [] => []
  | (name, value) :: fields =>
      if name = key then withoutFields key fields
      else (name, value.without key) :: withoutFields key fields

end

mutual

/-- What the fields with this key hold, at any depth and in the order in which they stand. -/
def under (key : Text) : Json → List Json
  | arr items => underItems key items
  | obj fields => underFields key fields
  | null | bool _ | int _ | real _ | str _ => []

def underItems (key : Text) : List Json → List Json
  | [] => []
  | item :: items => item.under key ++ underItems key items

def underFields (key : Text) : List (Text × Json) → List Json
  | [] => []
  | (name, value) :: fields =>
      (if name = key then [value] else value.under key) ++ underFields key fields

end

variable {key : Text}

theorem withoutFields_append (fields more : List (Text × Json)) :
    withoutFields key (fields ++ more) = withoutFields key fields ++ withoutFields key more := by
  induction fields with
  | nil => rfl
  | cons field fields ih =>
      obtain ⟨name, value⟩ := field
      by_cases same : name = key
      · simp [withoutFields, same, ih]
      · simp [withoutFields, same, ih]

theorem underFields_append (fields more : List (Text × Json)) :
    underFields key (fields ++ more) = underFields key fields ++ underFields key more := by
  induction fields with
  | nil => rfl
  | cons field fields ih =>
      obtain ⟨name, value⟩ := field
      simp [underFields, ih]

end Json

theorem Location.without_toJson (place : Location) :
    place.toJson.without "type" = place.toJson := by
  obtain ⟨line, column, offset, file⟩ := place
  cases line <;> cases column <;> rfl

theorem Location.under_toJson (place : Location) : place.toJson.under "type" = [] := by
  obtain ⟨line, column, offset, file⟩ := place
  cases line <;> cases column <;> rfl

namespace Expr

variable {kind : Kind} {place : Option Location}

theorem withoutFields_heading :
    Json.withoutFields "type" (heading kind place) = heading kind place := by
  cases place with
  | none => rfl
  | some place => simp [heading, Json.withoutFields, Json.without, place.without_toJson]

theorem underFields_heading : Json.underFields "type" (heading kind place) = [] := by
  cases place with
  | none => rfl
  | some place => simp [heading, Json.underFields, Json.under, place.under_toJson]

variable {own children : List (Text × Json)} {type : Json}

theorem without_node :
    (node kind place own [("type", type)] children).without "type" =
      node kind place (Json.withoutFields "type" own) [] (Json.withoutFields "type" children) := by
  simp [node, Json.without, Json.withoutFields_append, withoutFields_heading, Json.withoutFields]

theorem under_node (scalars : Json.underFields "type" own = []) :
    (node kind place own [("type", type)] children).under "type" =
      type :: Json.underFields "type" children := by
  simp [node, Json.under, Json.underFields_append, underFields_heading, Json.underFields, scalars]

end Expr

namespace Expr

variable {ν : Type}

def own : Expr ν → List (Text × Json)
  | int _ value => [("value", .int value)]
  | bool _ value => [("value", .bool value)]
  | str _ value => [("value", .str value)]
  | ident _ name => [("name", .str name)]
  | func _ parameter _ => [("parameter", .str parameter)]
  | binary _ op _ _ => [("operator", .str op.name)]
  | letIn _ name recursive _ _ => [("name", .str name), ("recursive", .bool recursive)]
  | not .. | cond .. | call .. => []

def shallow (place : Option Location) (e : Expr ν) : List (Text × Json) :=
  heading e.kind place ++ e.own

theorem keys_own (e : Expr ν) : e.own.map Prod.fst = e.kind.ownKeys := by
  cases e <;> rfl

theorem keys_heading (kind : Kind) (place : Option Location) :
    ((heading kind place).map Prod.fst).Sublist ["node", "location"] := by
  cases place <;> simp [heading]

theorem length_childKeys (e : Expr ν) : e.kind.childKeys.length = e.children.length := by
  cases e <;> rfl

theorem nodup_keys (kind : Kind) :
    ([("node" : Text), "location"] ++ kind.ownKeys ++
      ([("type" : Text)] ++ kind.childKeys)).Nodup := by
  cases kind <;> decide

variable {place : ν → Option Location} {extra : ν → List (Text × Json)}

theorem encode_eq_node (e : Expr ν) : e.encode place extra =
    node e.kind (place e.note) e.own (extra e.note)
      (e.kind.childKeys.zip (e.children.map (encode place extra))) := by
  cases e <;> rfl

/-- A node is encoded without its children first. Then the children are added, after what else
there is to say about the node. -/
theorem encode_eq_putAll (e : Expr ν) (few : ((extra e.note).map Prod.fst).Sublist ["type"]) :
    e.encode place extra = .obj (Json.putAll (e.shallow (place e.note)) (extra e.note ++
      e.kind.childKeys.zip (e.children.map (encode place extra)))) := by
  have children : (e.kind.childKeys.zip (e.children.map (encode place extra))).map Prod.fst =
      e.kind.childKeys :=
    List.map_fst_zip (Nat.le_of_eq (by rw [List.length_map, length_childKeys]))
  have distinct : ((e.shallow (place e.note) ++ (extra e.note ++
      e.kind.childKeys.zip (e.children.map (encode place extra)))).map Prod.fst).Nodup := by
    simp only [shallow, List.map_append, keys_own, children]
    exact (nodup_keys e.kind).sublist (((keys_heading _ _).append (.refl _)).append
      (few.append (.refl _)))
  rw [Json.putAll_of_nodup distinct, encode_eq_node, node, shallow, List.append_assoc]

end Expr

theorem Program.toJson_eq_putAll (e : Program) : e.toJson =
    .obj (Json.putAll (e.shallow e.note) (e.kind.childKeys.zip (e.children.map toJson))) :=
  Expr.encode_eq_putAll e (List.nil_sublist _)

namespace Annotated

theorem toJson_eq_putAll (tree : Annotated) : tree.toJson =
    .obj (Json.putAll (Json.put "type" (.str tree.type.text) (tree.shallow tree.note.1))
      (tree.kind.childKeys.zip (tree.children.map toJson))) :=
  Expr.encode_eq_putAll tree (.refl _)

theorem without_toJson (tree : Annotated) : tree.toJson.without "type" = tree.erase.toJson := by
  unfold toJson erase Program.toJson
  induction tree with
  | int | bool | str | ident => exact Expr.without_node
  | func note parameter body ih | not note body ih =>
      simp [Expr.encode, Expr.map, Expr.without_node, Json.withoutFields, Json.without, ih]
  | binary note op left right ihl ihr | call note left right ihl ihr
  | letIn note name recursive left right ihl ihr =>
      simp [Expr.encode, Expr.map, Expr.without_node, Json.withoutFields, Json.without, ihl, ihr]
  | cond note test yes no iht ihy ihn =>
      simp [Expr.encode, Expr.map, Expr.without_node, Json.withoutFields, iht, ihy, ihn]

theorem under_toJson (tree : Annotated) :
    tree.toJson.under "type" = tree.types.map fun t => .str t.text := by
  unfold toJson types
  induction tree with
  | int | bool | str | ident => exact Expr.under_node rfl
  | func note parameter body ih | not note body ih =>
      rw [Expr.encode, Expr.under_node rfl]
      simp [Json.underFields, Expr.notes, ih]
  | binary note op left right ihl ihr | call note left right ihl ihr
  | letIn note name recursive left right ihl ihr =>
      rw [Expr.encode, Expr.under_node rfl]
      simp [Json.underFields, Expr.notes, ihl, ihr]
  | cond note test yes no iht ihy ihn =>
      rw [Expr.encode, Expr.under_node rfl]
      simp [Json.underFields, Expr.notes, iht, ihy, ihn]

theorem ofJson_toJson {tree : Annotated} {file : Option Text}
    (places : ∀ p, some p ∈ tree.erase.notes → p.offset = 0 ∧ p.file = file) :
    Program.ofJson file tree.toJson = .ok tree.erase := by
  have silent : ∀ (note : Option Location × Ty) (key : Text), key ≠ "type" →
      List.lookup key [("type", Json.str note.2.text)] = none := by
    intro note key other
    simp [List.lookup_cons, beq_false_of_ne other]
  refine Program.ofJson_encode silent tree fun note hn p same => places p ?_
  rw [erase, Expr.notes_map, ← same]
  exact List.mem_map_of_mem hn

end Annotated

/-- An annotated run succeeds with a tree whose encoding is that of the program with the text of a
type in every node. Decoding gives the program back, if places are as they are written. -/
theorem type_entries_erase {e : Program} {result : Inference} {trace : Trace}
    (ran : e.run true = .ok result trace) :
    ∃ tree, result.tree = some tree ∧
      tree.toJson.without "type" = e.toJson ∧
      tree.toJson.under "type" = tree.types.map (fun t => .str t.text) ∧
      ∀ file, (∀ p, some p ∈ e.notes → p.offset = 0 ∧ p.file = file) →
        Program.ofJson file tree.toJson = .ok e := by
  obtain ⟨g, m, S, generates, -, -, -, annotated, -⟩ := exists_generic_tree ran
  have erased : (g.tree.assign S).erase = e := by
    rw [Annotated.erase_assign, generates.erase]
  refine ⟨_, annotated, ?_, Annotated.under_toJson _, fun file places => ?_⟩
  · rw [Annotated.without_toJson, erased]
  · rw [Annotated.ofJson_toJson (erased.symm ▸ places), erased]

theorem type_entries_erase_placed :
    let place : Location := { line := .number 1, column := .number 4, file := some "main.ml" }
    let e : Program := .letIn (some place) "id" false
      (.func none "type" (.ident (some place) "type"))
      (.call none (.ident none "id") (.str none "type"))
    ∃ result trace tree, e.run true = .ok result trace ∧ result.tree = some tree ∧
      tree.toJson.without "type" = Program.toJson e ∧
      tree.types.map Ty.text =
        ["String", "'b -> 'b", "'b", "String", "String -> String", "String"] ∧
      (∀ p, some p ∈ e.notes → p.offset = 0 ∧ p.file = some "main.ml") ∧
      Program.ofJson (some "main.ml") tree.toJson = .ok e := by
  intro place e
  have value : Unify.solve [⟨.var "a", .var "b", none⟩] = .ok ⟨[("a", .var "b")], 2⟩ := by cbv
  have whole : Unify.solve [⟨.var "a", .var "b", none⟩,
      ⟨.arrow (.var "c") (.var "c"), .arrow .string (.var "d"), none⟩] =
      .ok ⟨[("d", .string), ("c", .string), ("a", .var "b")], 2⟩ := by
    cbv
  have places : ∀ p, some p ∈ e.notes → p.offset = 0 ∧ p.file = some "main.ml" := by
    simp [e, place, Expr.notes]
  have scheme : letScheme [] false [("a", .var "b")] (.arrow (.var "a") (.var "b")) =
      .ok (.poly ["b"] (.arrow (.var "b") (.var "b"))) := rfl
  have generated : generate [] e {} = .ok _ _ := generate_letIn rfl rfl value scheme rfl
  obtain ⟨result, trace, ran, found⟩ := Program.exists_run generated whole rfl rfl
  obtain ⟨tree, same, plain, -, decodes⟩ := type_entries_erase ran
  cases found.symm.trans same
  exact ⟨result, trace, _, ran, found, plain, by decide, places, decodes _ places⟩

end HindleyMilner

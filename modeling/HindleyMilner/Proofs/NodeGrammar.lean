import HindleyMilner.Proofs.RoundTrip
import HindleyMilner.Proofs.SolvedForm

/-!
The grammar of encoded programs. `Denotes` has one rule for each kind of node: which fields the
node must have, what they hold, and which program it stands for. Decoding accepts exactly the values
of this grammar and gives the program that they stand for. It looks at no other field.
-/

namespace HindleyMilner

namespace Json

inductive Placed (file : Option Text) (d : Json) : Option Location → Prop
  | absent : d.get? "location" = none → Placed file d none
  | null : d.get? "location" = some .null → Placed file d none
  | given (line column : Coordinate) :
      d.get? "location" = some (.arr [line.toJson, column.toJson]) →
      Placed file d (some { line, column, file })

structure Headed (file : Option Text) (d : Json) (kind : Kind) (place : Option Location) :
    Prop where
  node : d.get? "node" = some (.str kind.name)
  placed : d.Placed file place

inductive Flagged (d : Json) (key : Text) : Bool → Prop
  | absent : d.get? key = none → Flagged d key false
  | given (value : Bool) : d.get? key = some (.bool value) → Flagged d key value

/-- The value is a node of the grammar and stands for the program. -/
inductive Denotes (file : Option Text) : Json → Program → Prop
  | int {d place value} : d.Headed file .int place → d.get? "value" = some (.int value) →
      Denotes file d (.int place value)
  | bool {d place value} : d.Headed file .bool place → d.get? "value" = some (.bool value) →
      Denotes file d (.bool place value)
  | str {d place value} : d.Headed file .str place → d.get? "value" = some (.str value) →
      Denotes file d (.str place value)
  | ident {d place name} : d.Headed file .ident place → d.get? "name" = some (.str name) →
      Denotes file d (.ident place name)
  | func {d place parameter b body} : d.Headed file .func place →
      d.get? "parameter" = some (.str parameter) →
      d.get? "body" = some b → Denotes file b body →
      Denotes file d (.func place parameter body)
  | not {d place o operand} : d.Headed file .not place →
      d.get? "operand" = some o → Denotes file o operand →
      Denotes file d (.not place operand)
  | binary {d place} {op : Operator} {l left r right} : d.Headed file .binary place →
      d.get? "operator" = some (.str op.name) →
      d.get? "left" = some l → Denotes file l left →
      d.get? "right" = some r → Denotes file r right →
      Denotes file d (.binary place op left right)
  | cond {d place t test y yes n no} : d.Headed file .cond place →
      d.get? "condition" = some t → Denotes file t test →
      d.get? "then" = some y → Denotes file y yes →
      d.get? "else" = some n → Denotes file n no →
      Denotes file d (.cond place test yes no)
  | call {d place c callee a argument} : d.Headed file .call place →
      d.get? "callee" = some c → Denotes file c callee →
      d.get? "argument" = some a → Denotes file a argument →
      Denotes file d (.call place callee argument)
  | letIn {d place name recursive v value b body} : d.Headed file .letIn place →
      d.get? "name" = some (.str name) → d.Flagged "recursive" recursive →
      d.get? "value" = some v → Denotes file v value →
      d.get? "body" = some b → Denotes file b body →
      Denotes file d (.letIn place name recursive value body)

theorem exists_fields_of_get? {d c : Json} {key : Text} (found : d.get? key = some c) :
    ∃ fields, d = .obj fields := by
  cases d with
  | obj fields => exact ⟨fields, rfl⟩
  | null | bool | int | real | str | arr => cases found

theorem sizeOf_lt_of_get? {d c : Json} {key : Text} (found : d.get? key = some c) :
    sizeOf c < sizeOf d := by
  obtain ⟨fields, rfl⟩ := exists_fields_of_get? found
  obtain ⟨before, after, rfl, -⟩ := List.lookup_eq_some_iff.1 found
  have smaller : sizeOf (key, c) < sizeOf (before ++ (key, c) :: after) :=
    List.sizeOf_lt_of_mem (by simp)
  simp only [Prod.mk.sizeOf_spec, obj.sizeOf_spec] at smaller ⊢
  omega

theorem induction_on_fields {P : Json → Prop}
    (step : ∀ d, (∀ key c, d.get? key = some c → P c) → P d) (d : Json) : P d :=
  step d fun _ c found =>
    have := sizeOf_lt_of_get? found
    induction_on_fields step c
termination_by sizeOf d

end Json

namespace Kind

def ownKeys : Kind → List Text
  | int | bool | str => ["value"]
  | ident => ["name"]
  | func => ["parameter"]
  | binary => ["operator"]
  | letIn => ["name", "recursive"]
  | not | cond | call => []

def childKeys : Kind → List Text
  | int | bool | str | ident => []
  | func => ["body"]
  | not => ["operand"]
  | binary => ["left", "right"]
  | cond => ["condition", "then", "else"]
  | call => ["callee", "argument"]
  | letIn => ["value", "body"]

def keys (kind : Kind) : List Text :=
  "node" :: "location" :: (kind.ownKeys ++ kind.childKeys)

theorem ofName?_eq_some {name : Text} {kind : Kind} :
    ofName? name = some kind ↔ name = kind.name := by
  constructor
  · intro found
    simpa [eq_comm] using List.find?_some found
  · rintro rfl
    exact ofName?_name kind

end Kind

theorem Operator.ofName?_eq_some {name : Text} {op : Operator} :
    ofName? name = some op ↔ name = op.name := by
  constructor
  · intro found
    simpa [eq_comm] using List.find?_some found
  · rintro rfl
    exact ofName?_name op

theorem Coordinate.ofJson?_eq_some {v : Json} {c : Coordinate} :
    ofJson? v = some c ↔ v = c.toJson := by
  constructor
  · intro found
    cases v <;> cases found <;> rfl
  · rintro rfl
    exact ofJson?_toJson c

theorem Location.ofJson?_eq_some {file : Option Text} {v : Json} {place : Location} :
    ofJson? file v = some place ↔ ∃ line column : Coordinate,
      v = .arr [line.toJson, column.toJson] ∧ place = { line, column, file } := by
  constructor
  · intro found
    unfold ofJson? at found
    split at found
    · simp only [Option.bind_eq_bind, Option.bind_eq_some_iff, Coordinate.ofJson?_eq_some] at found
      obtain ⟨line, rfl, column, rfl, ⟨⟩⟩ := found
      exact ⟨line, column, rfl, rfl⟩
    · cases found
  · rintro ⟨line, column, rfl, rfl⟩
    simp [ofJson?, Coordinate.ofJson?_toJson]

namespace Scope

variable {file : Option Text} {kind : Kind} {place : Option Location} {d : Json} {key : Text}

def ofJson (file : Option Text) (kind : Kind) (place : Option Location) : Json → Scope
  | .obj fields => { kind, place, fields := Program.readings file fields }
  | _ => { kind, place, fields := [] }

@[simp] theorem kind_ofJson : (ofJson file kind place d).kind = kind := by
  cases d <;> rfl

@[simp] theorem place_ofJson : (ofJson file kind place d).place = place := by
  cases d <;> rfl

theorem lookup_ofJson : (ofJson file kind place d).fields.lookup key =
    (d.get? key).map fun value => ⟨value, Program.ofJson file value⟩ := by
  cases d with
  | obj fields => exact Program.lookup_readings fields key
  | null | bool | int | real | str | arr => rfl

theorem field_ofJson : (ofJson file kind place d).field key =
    match d.get? key with
    | some value => .ok ⟨value, Program.ofJson file value⟩
    | none => .error (.malformed (.missingField kind key) place) := by
  rw [field, lookup_ofJson, fail, kind_ofJson, place_ofJson]
  cases d.get? key <;> rfl

theorem integer_eq_ok {value : Int} : (ofJson file kind place d).integer key = .ok value ↔
    d.get? key = some (.int value) := by
  rw [integer, field_ofJson]
  cases d.get? key with
  | none => simp [bind, Except.bind]
  | some v => cases v <;> simp [bind, Except.bind, pure, Except.pure, fail]

theorem boolean_eq_ok {value : Bool} : (ofJson file kind place d).boolean key = .ok value ↔
    d.get? key = some (.bool value) := by
  rw [boolean, field_ofJson]
  cases d.get? key with
  | none => simp [bind, Except.bind]
  | some v => cases v <;> simp [bind, Except.bind, pure, Except.pure, fail]

theorem text_eq_ok {value : Text} : (ofJson file kind place d).text key = .ok value ↔
    d.get? key = some (.str value) := by
  rw [text, field_ofJson]
  cases d.get? key with
  | none => simp [bind, Except.bind]
  | some v => cases v <;> simp [bind, Except.bind, pure, Except.pure, fail]

theorem flag_eq_ok {value : Bool} : (ofJson file kind place d).flag key = .ok value ↔
    d.Flagged key value := by
  rw [flag, lookup_ofJson, Option.isSome_map]
  constructor
  · intro h
    cases found : d.get? key with
    | none =>
        rw [found] at h
        cases h
        exact .absent found
    | some v =>
        rw [found] at h
        exact .given value (boolean_eq_ok.1 h)
  · intro h
    cases h with
    | absent absent => rw [absent]; rfl
    | given _ found =>
        rw [found]
        exact boolean_eq_ok.2 found

theorem operator_eq_ok {op : Operator} : (ofJson file kind place d).operator = .ok op ↔
    d.get? "operator" = some (.str op.name) := by
  rw [operator, field_ofJson]
  cases d.get? "operator" with
  | none => simp [bind, Except.bind]
  | some v =>
      cases v with
      | str name =>
          simp only [Option.some.injEq, Json.str.injEq, ← Operator.ofName?_eq_some]
          cases known : Operator.ofName? name <;>
            simp [bind, Except.bind, known, pure, Except.pure, fail]
      | null | bool | int | real | arr | obj => simp [bind, Except.bind, fail]

theorem child_eq_ok {e : Program} : (ofJson file kind place d).child key = .ok e ↔
    ∃ c, d.get? key = some c ∧ Program.ofJson file c = .ok e := by
  rw [child, field_ofJson]
  cases d.get? key <;> simp [bind, Except.bind]

theorem program_congr {d' : Json}
    (same : ∀ key ∈ kind.ownKeys ++ kind.childKeys, d'.get? key = d.get? key) :
    (ofJson file kind place d').program = (ofJson file kind place d).program := by
  cases kind <;>
    simp only [Kind.ownKeys, Kind.childKeys, List.cons_append, List.nil_append, List.append_nil,
      List.forall_mem_cons, List.not_mem_nil, false_implies, implies_true, and_true] at same <;>
    simp only [program, integer, boolean, text, flag, operator, child, fail, field_ofJson,
      lookup_ofJson, kind_ofJson, place_ofJson, same]

end Scope

namespace Program

variable {file : Option Text} {fields : List (Text × Json)}

theorem kindOf_eq_ok {kind : Kind} : kindOf (readings file fields) = .ok kind ↔
    fields.lookup ("node" : Text) = some (.str kind.name) := by
  rw [kindOf, lookup_readings]
  cases fields.lookup ("node" : Text) with
  | none => simp
  | some v =>
      cases v with
      | str name =>
          simp only [Option.map_some, Option.some.injEq, Json.str.injEq, ← Kind.ofName?_eq_some]
          cases Kind.ofName? name <;> simp
      | null | bool | int | real | arr | obj => simp

theorem placeOf_eq_ok {place : Option Location} : placeOf file (readings file fields) = .ok place ↔
    Json.Placed file (.obj fields) place := by
  rw [placeOf, lookup_readings]
  constructor
  · intro h
    cases found : fields.lookup ("location" : Text) with
    | none =>
        rw [found] at h
        cases h
        exact .absent found
    | some v =>
        rw [found, Option.map_some] at h
        cases v with
        | null =>
            cases h
            exact .null found
        | bool | int | real | str | obj => cases h
        | arr items =>
            simp only at h
            split at h
            · rename_i located
              obtain ⟨line, column, same, rfl⟩ := Location.ofJson?_eq_some.1 located
              cases h
              exact .given line column (found.trans (congrArg some same))
            · cases h
  · intro h
    cases h with
    | absent absent => rw [show fields.lookup _ = _ from absent]; rfl
    | null null => rw [show fields.lookup _ = _ from null]; rfl
    | given line column found =>
        rw [show fields.lookup _ = _ from found]
        simp [Location.ofJson?, Coordinate.ofJson?_toJson]

theorem kindOf_malformed {readings : List (Text × Reading)} {fault : LoadError}
    (failed : kindOf readings = .error fault) : ∃ cause, fault = .malformed cause none := by
  rw [kindOf] at failed
  split at failed
  · split at failed <;> cases failed
    exact ⟨_, rfl⟩
  · cases failed
    exact ⟨_, rfl⟩
  · cases failed
    exact ⟨_, rfl⟩

theorem placeOf_malformed {readings : List (Text × Reading)} {fault : LoadError}
    (failed : placeOf file readings = .error fault) : ∃ cause, fault = .malformed cause none := by
  rw [placeOf] at failed
  split at failed
  · cases failed
  · cases failed
  · split at failed <;> cases failed
    exact ⟨_, rfl⟩

theorem ofJson_of_headed {d : Json} {kind : Kind} {place : Option Location}
    (headed : d.Headed file kind place) :
    ofJson file d = (Scope.ofJson file kind place d).program := by
  obtain ⟨fields, rfl⟩ := Json.exists_fields_of_get? headed.node
  rw [ofJson, ofReadings, kindOf_eq_ok.2 headed.node, placeOf_eq_ok.2 headed.placed]
  rfl

theorem headed_or_malformed (file : Option Text) (d : Json) :
    (∃ kind place, d.Headed file kind place) ∨
      ∃ cause, ofJson file d = .error (.malformed cause none) := by
  cases d with
  | obj fields =>
      rw [ofJson, ofReadings]
      cases node : kindOf (readings file fields) with
      | error fault =>
          obtain ⟨cause, rfl⟩ := kindOf_malformed node
          exact .inr ⟨cause, rfl⟩
      | ok kind =>
          cases placed : placeOf file (readings file fields) with
          | error fault =>
              obtain ⟨cause, rfl⟩ := placeOf_malformed placed
              exact .inr ⟨cause, rfl⟩
          | ok place => exact .inl ⟨kind, place, kindOf_eq_ok.1 node, placeOf_eq_ok.1 placed⟩
  | null | bool | int | real | str | arr => exact .inr ⟨_, by rw [ofJson]⟩

theorem denotes_of_ofJson (d : Json) : ∀ e, ofJson file d = .ok e → d.Denotes file e := by
  induction d using Json.induction_on_fields with
  | step d ih =>
    intro e decoded
    obtain ⟨kind, place, headed⟩ | ⟨cause, failed⟩ := headed_or_malformed file d
    case inr => simp [failed] at decoded
    -- What each reader has returned says what its field holds; the children are left to `ih`.
    rw [ofJson_of_headed headed, Scope.program] at decoded
    cases kind <;> simp only [Scope.kind_ofJson, Scope.place_ofJson, bind_eq_ok, pure,
      Except.pure, Except.ok.injEq, Scope.integer_eq_ok, Scope.boolean_eq_ok, Scope.text_eq_ok,
      Scope.flag_eq_ok, Scope.operator_eq_ok, Scope.child_eq_ok] at decoded
    case int =>
      obtain ⟨value, found, rfl⟩ := decoded
      exact .int headed found
    case bool =>
      obtain ⟨value, found, rfl⟩ := decoded
      exact .bool headed found
    case str =>
      obtain ⟨value, found, rfl⟩ := decoded
      exact .str headed found
    case ident =>
      obtain ⟨name, found, rfl⟩ := decoded
      exact .ident headed found
    case func =>
      obtain ⟨parameter, found, body, ⟨b, hasBody, hb⟩, rfl⟩ := decoded
      exact .func headed found hasBody (ih _ b hasBody body hb)
    case not =>
      obtain ⟨operand, ⟨o, hasOperand, ho⟩, rfl⟩ := decoded
      exact .not headed hasOperand (ih _ o hasOperand operand ho)
    case binary =>
      obtain ⟨op, found, left, ⟨l, hasLeft, hl⟩, right, ⟨r, hasRight, hr⟩, rfl⟩ := decoded
      exact .binary headed found hasLeft (ih _ l hasLeft left hl)
        hasRight (ih _ r hasRight right hr)
    case cond =>
      obtain ⟨test, ⟨t, hasTest, ht⟩, yes, ⟨y, hasYes, hy⟩, no, ⟨n, hasNo, hn⟩, rfl⟩ := decoded
      exact .cond headed hasTest (ih _ t hasTest test ht) hasYes (ih _ y hasYes yes hy)
        hasNo (ih _ n hasNo no hn)
    case call =>
      obtain ⟨callee, ⟨c, hasCallee, hc⟩, argument, ⟨a, hasArgument, ha⟩, rfl⟩ := decoded
      exact .call headed hasCallee (ih _ c hasCallee callee hc)
        hasArgument (ih _ a hasArgument argument ha)
    case letIn =>
      obtain ⟨name, found, recursive, flagged, value, ⟨v, hasValue, hv⟩, body, ⟨b, hasBody, hb⟩,
        rfl⟩ := decoded
      exact .letIn headed found flagged hasValue (ih _ v hasValue value hv)
        hasBody (ih _ b hasBody body hb)

theorem ofJson_of_denotes {d : Json} {e : Program} (denotes : d.Denotes file e) :
    ofJson file d = .ok e := by
  induction denotes
  all_goals
    rw [ofJson_of_headed ‹_›, Scope.program]
    simp only [Scope.kind_ofJson, Scope.place_ofJson, bind_eq_ok, pure, Except.pure,
      Except.ok.injEq, Scope.integer_eq_ok, Scope.boolean_eq_ok, Scope.text_eq_ok,
      Scope.flag_eq_ok, Scope.operator_eq_ok, Scope.child_eq_ok]
  case int found => exact ⟨_, found, rfl⟩
  case bool found => exact ⟨_, found, rfl⟩
  case str found => exact ⟨_, found, rfl⟩
  case ident found => exact ⟨_, found, rfl⟩
  case func found hasBody _ body => exact ⟨_, found, _, ⟨_, hasBody, body⟩, rfl⟩
  case not hasOperand _ operand => exact ⟨_, ⟨_, hasOperand, operand⟩, rfl⟩
  case binary found hasLeft _ hasRight _ left right =>
    exact ⟨_, found, _, ⟨_, hasLeft, left⟩, _, ⟨_, hasRight, right⟩, rfl⟩
  case cond hasTest _ hasYes _ hasNo _ test yes no =>
    exact ⟨_, ⟨_, hasTest, test⟩, _, ⟨_, hasYes, yes⟩, _, ⟨_, hasNo, no⟩, rfl⟩
  case call hasCallee _ hasArgument _ callee argument =>
    exact ⟨_, ⟨_, hasCallee, callee⟩, _, ⟨_, hasArgument, argument⟩, rfl⟩
  case letIn found flagged hasValue _ hasBody _ value body =>
    exact ⟨_, found, _, flagged, _, ⟨_, hasValue, value⟩, _, ⟨_, hasBody, body⟩, rfl⟩

theorem ofJson_congr {d d' : Json} {kind : Kind} (node : d.get? "node" = some (.str kind.name))
    (same : ∀ key ∈ kind.keys, d'.get? key = d.get? key) : ofJson file d' = ofJson file d := by
  simp only [Kind.keys, List.forall_mem_cons] at same
  obtain ⟨sameNode, samePlace, same⟩ := same
  have node' := sameNode.trans node
  obtain ⟨fields, rfl⟩ := Json.exists_fields_of_get? node
  obtain ⟨fields', rfl⟩ := Json.exists_fields_of_get? node'
  have place : placeOf file (readings file fields') = placeOf file (readings file fields) := by
    rw [placeOf, placeOf, lookup_readings, lookup_readings,
      show fields'.lookup _ = _ from samePlace]
    rfl
  rw [ofJson, ofJson, ofReadings, ofReadings, kindOf_eq_ok.2 node, kindOf_eq_ok.2 node', place]
  cases placeOf file (readings file fields) with
  | error fault => rfl
  | ok place => exact Scope.program_congr same

/-- Decoding accepts exactly the grammar, gives the program that the value stands for, and looks at
no field beside those of the kind. -/
theorem ofJson_iff_denotes (file : Option Text) (d : Json) :
    (∀ e, ofJson file d = .ok e ↔ d.Denotes file e) ∧
    ∀ kind : Kind, d.get? "node" = some (.str kind.name) → ∀ d' : Json,
      (∀ key ∈ kind.keys, d'.get? key = d.get? key) → ofJson file d' = ofJson file d :=
  ⟨fun e => ⟨denotes_of_ofJson d e, ofJson_of_denotes⟩, fun _ node _ same => ofJson_congr node same⟩

theorem ofJson_iff_denotes_reordered :
    let one : Json := .obj [("node", .str "int"), ("value", .int 1)]
    let x : Json := .obj [("node", .str "id"), ("location", .null), ("name", .str "x")]
    let d : Json := .obj [("node", .str "let"), ("location", .arr [.bool true, .int 3]),
      ("name", .str "x"), ("value", one), ("body", x)]
    let d' : Json := .obj [("operator", .arr []), ("body", x), ("value", one), ("name", .str "x"),
      ("location", .arr [.bool true, .int 3]), ("node", .str "let")]
    let place : Location := { line := .flag true, column := .number 3, file := some "f" }
    let e : Program := .letIn (some place) "x" false (.int none 1) (.ident none "x")
    d.Denotes (some "f") e ∧ ofJson (some "f") d' = .ok e := by
  intro one x d d' place e
  have denotes : d.Denotes (some "f") e :=
    .letIn ⟨rfl, .given (.flag true) (.number 3) rfl⟩ rfl (.absent rfl)
      rfl (.int ⟨rfl, .absent rfl⟩ rfl) rfl (.ident ⟨rfl, .null rfl⟩ rfl)
  have same : ∀ key ∈ Kind.letIn.keys, d'.get? key = d.get? key := by
    simp [Kind.keys, Kind.ownKeys, Kind.childKeys, d, d', Json.get?, List.lookup_cons]
  have ⟨accepts, ignores⟩ := ofJson_iff_denotes (some "f") d
  exact ⟨denotes, (ignores .letIn rfl d' same).trans ((accepts e).2 denotes)⟩

end Program

end HindleyMilner

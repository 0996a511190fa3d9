import HindleyMilner.Cli.Run
import HindleyMilner.Proofs.NodeGrammar

/-!
How loading fails. Nearly every flaw of an input makes it malformed, which a command reports. Two
do not: an operator that is an array or object, if decoding comes to it, and a numeral with more
digits than the reader converts.
-/

namespace HindleyMilner

theorem mapM_eq_error {ε α β : Type} {f : α → Except ε β} {l : List α} {fault : ε} :
    l.mapM f = .error fault ↔ ∃ before a after, l = before ++ a :: after ∧
      (∀ b ∈ before, ∃ c, f b = .ok c) ∧ f a = .error fault := by
  induction l with
  | nil => simp [pure, Except.pure]
  | cons x l ih =>
      simp only [List.mapM_cons, bind_eq_error, ih, pure, Except.pure, reduceCtorEq, and_false,
        exists_false, or_false]
      constructor
      · rintro (first | ⟨c, passed, before, a, after, rfl, passes, failed⟩)
        · exact ⟨[], x, l, rfl, nofun, first⟩
        · refine ⟨x :: before, a, after, rfl, ?_, failed⟩
          rw [List.forall_mem_cons]
          exact ⟨⟨c, passed⟩, passes⟩
      · rintro ⟨before, a, after, split, passes, failed⟩
        cases before with
        | nil =>
            obtain ⟨rfl, rfl⟩ := List.cons.inj split
            exact .inl failed
        | cons b before =>
            obtain ⟨rfl, rfl⟩ := List.cons.inj split
            obtain ⟨⟨c, passed⟩, passes⟩ := List.forall_mem_cons.1 passes
            exact .inr ⟨c, passed, before, a, after, rfl, passes, failed⟩

namespace Json

def Compound : Json → Prop
  | arr _ | obj _ => True
  | null | bool _ | int _ | real _ | str _ => False

def HasOwn (d : Json) : Kind → Prop
  | .int => ∃ value, d.get? "value" = some (.int value)
  | .bool => ∃ value, d.get? "value" = some (.bool value)
  | .str => ∃ value, d.get? "value" = some (.str value)
  | .ident => ∃ name, d.get? "name" = some (.str name)
  | .func => ∃ parameter, d.get? "parameter" = some (.str parameter)
  | .binary => ∃ op : Operator, d.get? "operator" = some (.str op.name)
  | .letIn => (∃ name, d.get? "name" = some (.str name)) ∧ ∃ value, d.Flagged "recursive" value
  | .not | .cond | .call => True

/-- The first thing wrong with the value is an operator that is an array or object: it is that of
the node itself, or it is in a child, and all that is read before is in the grammar. -/
inductive Trips (file : Option Text) : Json → Json → Prop
  | here {d place op} : d.Headed file .binary place → d.get? "operator" = some op → op.Compound →
      Trips file d op
  | child {d kind place before key after c op} : d.Headed file kind place → d.HasOwn kind →
      kind.childKeys = before ++ key :: after →
      (∀ k ∈ before, ∃ b e, d.get? k = some b ∧ b.Denotes file e) →
      d.get? key = some c → Trips file c op →
      Trips file d op

end Json

def LoadError.Escapes : LoadError → Prop
  | malformed .. => False
  | compoundOperator _ | longNumeral .. => True

inductive Orderly {α : Type} : Except LoadError α → Prop
  | ok (a : α) : Orderly (.ok a)
  | malformed (cause : Malformed) (place : Option Location) :
      Orderly (.error (.malformed cause place))

namespace Orderly

variable {α β : Type}

theorem bind {m : Except LoadError α} {f : α → Except LoadError β} (hm : Orderly m)
    (hf : ∀ a, Orderly (f a)) : Orderly (m >>= f) := by
  cases hm with
  | ok a => exact hf a
  | malformed cause place => exact .malformed cause place

theorem ne_error {result : Except LoadError α} {fault : LoadError} (orderly : Orderly result)
    (escapes : fault.Escapes) : result ≠ .error fault := by
  rintro rfl
  cases orderly
  exact escapes

theorem of_not_escapes {result : Except LoadError α}
    (settled : ∀ fault, result = .error fault → ¬fault.Escapes) : Orderly result := by
  match result with
  | .ok a => exact .ok a
  | .error (.malformed cause place) => exact .malformed cause place
  | .error (.compoundOperator _) | .error (.longNumeral ..) =>
      exact absurd trivial (settled _ rfl)

end Orderly

namespace Scope

variable {scope : Scope} {key : Text}

theorem orderly_field : Orderly (scope.field key) := by
  rw [field]
  cases scope.fields.lookup key with
  | none => exact .malformed _ _
  | some reading => exact .ok reading

theorem orderly_integer : Orderly (scope.integer key) := by
  refine orderly_field.bind fun reading => ?_
  cases reading.value with
  | int value => exact .ok value
  | null | bool | real | str | arr | obj => exact .malformed _ _

theorem orderly_boolean : Orderly (scope.boolean key) := by
  refine orderly_field.bind fun reading => ?_
  cases reading.value with
  | bool value => exact .ok value
  | null | int | real | str | arr | obj => exact .malformed _ _

theorem orderly_text : Orderly (scope.text key) := by
  refine orderly_field.bind fun reading => ?_
  cases reading.value with
  | str value => exact .ok value
  | null | bool | int | real | arr | obj => exact .malformed _ _

theorem orderly_flag : Orderly (scope.flag key) := by
  rw [flag]
  split
  · exact orderly_boolean
  · exact .ok false

def own (scope : Scope) : Except LoadError Unit :=
  match scope.kind with
  | .int => do
      let _ ← scope.integer "value"
  | .bool => do
      let _ ← scope.boolean "value"
  | .str => do
      let _ ← scope.text "value"
  | .ident => do
      let _ ← scope.text "name"
  | .func => do
      let _ ← scope.text "parameter"
  | .binary => do
      let _ ← scope.operator
  | .letIn => do
      let _ ← scope.text "name"
      let _ ← scope.flag "recursive"
  | .not | .cond | .call => .ok ()

theorem orderly_own (other : scope.kind ≠ .binary) : Orderly scope.own := by
  obtain ⟨kind, place, fields⟩ := scope
  cases kind with
  | int => exact orderly_integer.bind fun _ => .ok ()
  | bool => exact orderly_boolean.bind fun _ => .ok ()
  | str | ident | func => exact orderly_text.bind fun _ => .ok ()
  | letIn => exact orderly_text.bind fun _ => orderly_flag.bind fun _ => .ok ()
  | not | cond | call => exact .ok ()
  | binary => exact absurd rfl other

theorem program_eq_error {fault : LoadError} : scope.program = .error fault ↔
    scope.own = .error fault ∨
      scope.own = .ok () ∧ scope.kind.childKeys.mapM scope.child = .error fault := by
  obtain ⟨kind, place, fields⟩ := scope
  cases kind <;>
    simp only [program, own, Kind.childKeys, List.mapM_cons, List.mapM_nil, bind_eq_error,
      bind_eq_ok, pure, Except.pure, reduceCtorEq, and_true, and_false, exists_and_right,
      exists_false, or_false, false_or, true_and]
  case letIn => rw [and_or_left, ← or_assoc, and_assoc]

section

variable {file : Option Text} {kind : Kind} {place : Option Location} {d : Json}
  {fault : LoadError}

theorem own_eq_ok : (ofJson file kind place d).own = .ok () ↔ d.HasOwn kind := by
  rw [own, kind_ofJson]
  cases kind <;>
    simp only [Json.HasOwn, bind_eq_ok, integer_eq_ok, boolean_eq_ok, text_eq_ok, operator_eq_ok,
      flag_eq_ok, pure, Except.pure, and_true, exists_and_right]

theorem operator_escapes (escapes : fault.Escapes) :
    (ofJson file kind place d).operator = .error fault ↔
      ∃ op, fault = .compoundOperator op ∧ d.get? "operator" = some op ∧ op.Compound := by
  rw [operator, field_ofJson]
  constructor
  · intro failed
    cases found : d.get? "operator" with
    | none =>
        rw [found] at failed
        exact absurd failed (Orderly.ne_error (.malformed _ _) escapes)
    | some op =>
        rw [found] at failed
        cases op with
        | arr | obj =>
            cases failed
            exact ⟨_, rfl, rfl, trivial⟩
        | str name =>
            cases known : Operator.ofName? name with
            | none =>
                simp only [bind, Except.bind, known] at failed
                exact absurd failed (Orderly.ne_error (.malformed _ _) escapes)
            | some op => simp [bind, Except.bind, known, pure, Except.pure] at failed
        | null | bool | int | real =>
            exact absurd failed (Orderly.ne_error (.malformed _ _) escapes)
  · rintro ⟨op, rfl, found, compound⟩
    rw [found]
    cases op with
    | arr | obj => rfl
    | null | bool | int | real | str => cases compound

theorem own_escapes (escapes : fault.Escapes) : (ofJson file kind place d).own = .error fault ↔
    kind = .binary ∧
      ∃ op, fault = .compoundOperator op ∧ d.get? "operator" = some op ∧ op.Compound := by
  by_cases binary : kind = .binary
  · subst binary
    rw [own, kind_ofJson]
    simp only [bind_eq_error, operator_escapes escapes, pure, Except.pure, reduceCtorEq, and_false,
      exists_false, or_false, true_and]
  · have other : (ofJson file kind place d).kind ≠ .binary := by rwa [kind_ofJson]
    exact iff_of_false ((orderly_own other).ne_error escapes) fun h => binary h.1

theorem child_escapes (escapes : fault.Escapes) :
    (ofJson file kind place d).child key = .error fault ↔
      ∃ c, d.get? key = some c ∧ Program.ofJson file c = .error fault := by
  rw [child, field_ofJson]
  cases d.get? key with
  | none =>
      refine iff_of_false (Orderly.ne_error (.malformed _ _) escapes) ?_
      rintro ⟨c, ⟨⟩, -⟩
  | some c => simp [bind, Except.bind]

end

end Scope

namespace Program

variable {file : Option Text}

theorem trips_of_ofJson (d : Json) : ∀ fault : LoadError, fault.Escapes →
    ofJson file d = .error fault → ∃ op, fault = .compoundOperator op ∧ d.Trips file op := by
  induction d using Json.induction_on_fields with
  | step d ih =>
    intro fault escapes failed
    obtain ⟨kind, place, headed⟩ | ⟨cause, malformed⟩ := headed_or_malformed file d
    case inr =>
      obtain ⟨⟩ := failed.symm.trans malformed
      cases escapes
    rw [ofJson_of_headed headed, Scope.program_eq_error, Scope.own_escapes escapes, Scope.own_eq_ok,
      Scope.kind_ofJson, mapM_eq_error] at failed
    obtain ⟨rfl, op, rfl, found, compound⟩ | ⟨own, before, key, after, keys, passed, failed⟩ :=
      failed
    · exact ⟨op, rfl, .here headed found compound⟩
    -- Decoding stops at the first child that fails, so those before it are in the grammar.
    · obtain ⟨c, found, failed⟩ := (Scope.child_escapes escapes).1 failed
      obtain ⟨op, same, trips⟩ := ih key c found fault escapes failed
      refine ⟨op, same, .child headed own keys (fun k hk => ?_) found trips⟩
      obtain ⟨e, passed⟩ := passed k hk
      obtain ⟨b, hasChild, decoded⟩ := Scope.child_eq_ok.1 passed
      exact ⟨b, e, hasChild, denotes_of_ofJson b e decoded⟩

theorem ofJson_of_trips {d op : Json} (trips : d.Trips file op) :
    ofJson file d = .error (.compoundOperator op) := by
  have escapes : (LoadError.compoundOperator op).Escapes := trivial
  induction trips with
  | here headed found compound =>
      rw [ofJson_of_headed headed, Scope.program_eq_error, Scope.own_escapes escapes]
      exact .inl ⟨rfl, _, rfl, found, compound⟩
  | child headed own keys passed found _ failed =>
      rw [ofJson_of_headed headed, Scope.program_eq_error, Scope.own_eq_ok, Scope.kind_ofJson,
        mapM_eq_error]
      refine .inr ⟨own, _, _, _, keys, fun k hk => ?_,
        (Scope.child_escapes escapes).2 ⟨_, found, failed escapes⟩⟩
      obtain ⟨b, e, hasChild, denotes⟩ := passed k hk
      exact ⟨e, Scope.child_eq_ok.2 ⟨b, hasChild, ofJson_of_denotes denotes⟩⟩

theorem ofJson_eq_compoundOperator {d op : Json} :
    ofJson file d = .error (.compoundOperator op) ↔ d.Trips file op := by
  constructor
  · intro failed
    obtain ⟨_, ⟨⟩, trips⟩ := trips_of_ofJson d (.compoundOperator op) trivial failed
    exact trips
  · exact ofJson_of_trips

theorem ofJson_orderly_iff {d : Json} : Orderly (ofJson file d) ↔ ¬∃ op, d.Trips file op := by
  constructor
  · rintro orderly ⟨op, trips⟩
    have escapes : (LoadError.compoundOperator op).Escapes := trivial
    exact orderly.ne_error escapes (ofJson_of_trips trips)
  · refine fun safe => .of_not_escapes fun fault failed escapes => safe ?_
    obtain ⟨op, -, trips⟩ := trips_of_ofJson d fault escapes failed
    exact ⟨op, trips⟩

end Program

namespace Json

/-- A text with `n` digits in a row, which are more than the limit. -/
def Overlong (limit n : Nat) (text : Text) : Prop :=
  limit < n ∧ ∃ digits, digits <:+: text ∧ digits.length = n ∧ ∀ p ∈ digits, isDigit p = true

theorem Overlong.mono {limit n : Nat} {text whole : Text} (h : Overlong limit n text)
    (part : text <:+: whole) : Overlong limit n whole := by
  obtain ⟨many, digits, inside, counted⟩ := h
  exact ⟨many, digits, inside.trans part, counted⟩

theorem wholeOf_begins (text : Text) : wholeOf text <+: text := by
  unfold wholeOf
  split
  · exact ⟨_, rfl⟩
  · exact List.takeWhile_prefix isDigit

theorem isDigit_of_mem_wholeOf {p : Point} {text : Text} (h : p ∈ wholeOf text) :
    isDigit p = true := by
  unfold wholeOf at h
  split at h
  · rw [List.mem_singleton.1 h]
    rfl
  · exact List.all_eq_true.1 List.all_takeWhile p h

theorem scanNumber?_integer {negative sign : Bool} {text digits : Text} {size : Nat}
    (h : scanNumber? negative text = some (.integer sign digits, size)) :
    digits = wholeOf text := by
  simp only [scanNumber?, Option.ite_none_left_eq_some] at h
  obtain ⟨-, h⟩ := h
  split at h
  · cases h
    rfl
  · cases h

theorem scan_integer {p : Point} {rest digits : Text} {sign : Bool}
    (h : (scan p rest).1 = .integer sign digits) :
    ∃ text, text <:+ p :: rest ∧ digits = wholeOf text := by
  unfold scan at h
  split at h
  · rw [scanText] at h
    split at h <;> cases h
  · cases mark : punctuation? p with
    | some token =>
        rw [mark] at h
        unfold punctuation? at mark
        split at mark <;> cases mark <;> cases h
    | none =>
        cases word : scanWord? (p :: rest) with
        | some found =>
            obtain ⟨entry, -, rfl⟩ := Option.map_eq_some_iff.1 word
            simp [mark, word] at h
        | none =>
            simp only [mark, word] at h
            split at h
            · cases number : scanNumber? true rest with
              | none => simp [number] at h
              | some found =>
                  obtain ⟨token, size⟩ := found
                  rw [number] at h
                  cases h
                  exact ⟨rest, List.suffix_cons p rest, scanNumber?_integer number⟩
            · cases number : scanNumber? false (p :: rest) with
              | none => simp [number] at h
              | some found =>
                  obtain ⟨token, size⟩ := found
                  rw [number] at h
                  cases h
                  exact ⟨p :: rest, List.suffix_rfl, scanNumber?_integer number⟩

theorem begin_longNumeral {limits : Limits} {room offset n : Nat} {frames : List Frame}
    {token : Token}
    (h : Machine.begin limits room frames offset token = .error (.longNumeral n)) :
    limits.digits < n ∧
      ∃ negative digits, token = .integer negative digits ∧ digits.length = n := by
  cases token with
  | integer negative digits =>
      rw [Machine.begin] at h
      split at h
      · cases h
        exact ⟨‹_›, negative, digits, rfl, rfl⟩
      · cases h
  | openArray | openObject =>
      rw [Machine.begin] at h
      split at h <;> cases h
  | closeArray | closeObject | comma | colon | scalar | text | flawed | stray => cases h

theorem step_longNumeral {limits : Limits} {m : Machine} {offset n : Nat} {token : Token}
    (h : m.step limits offset token = .error (.longNumeral n)) :
    limits.digits < n ∧
      ∃ negative digits, token = .integer negative digits ∧ digits.length = n := by
  have key {room : Nat} {done : List (Text × Json)} {frames : List Frame} :
      Machine.beginKey room done frames offset token ≠ .error (.longNumeral n) := by
    cases token <;> nofun
  unfold Machine.step at h
  split at h
  -- A value may start in two of the states and a key in two others.
  case h_1 | h_3 => exact begin_longNumeral h
  case h_5 | h_6 => exact absurd h key
  all_goals cases h

theorem run_longNumeral {limits : Limits} {n : Nat} (m : Machine) (offset : Nat) (text : Text)
    (h : Machine.run limits m offset text = .error (.longNumeral n)) :
    Overlong limits.digits n text := by
  fun_induction Machine.run limits m offset text with
  | case1 | case2 => cases h
  | case3 m offset p rest space ih => exact (ih h).mono (List.suffix_cons p rest).isInfix
  | case4 m offset p rest solid found fault failed =>
      -- Only a token at which a step fails can be the numeral.
      cases h
      obtain ⟨many, negative, digits, token, counted⟩ := step_longNumeral failed
      obtain ⟨text, inside, rfl⟩ := scan_integer token
      exact ⟨many, _, (wholeOf_begins text).isInfix.trans inside.isInfix, counted,
        fun _ => isDigit_of_mem_wholeOf⟩
  | case5 m offset p rest solid found next stepped ih =>
      refine (ih h).mono (List.IsSuffix.isInfix ?_)
      exact (List.drop_suffix found.2 rest).trans (List.suffix_cons p rest)

theorem read_longNumeral {limits : Limits} {n : Nat} {text : Text}
    (h : read limits text = .error (.longNumeral n)) : Overlong limits.digits n text := by
  simp only [read] at h
  split at h
  · cases h
  · exact run_longNumeral _ _ _ h

theorem read_toString_long {limits : Limits} (n : Int)
    (long : limits.digits < (Nat.toDigits 10 n.natAbs).length) :
    read limits (toString n) = .error (.longNumeral (Nat.toDigits 10 n.natAbs).length) := by
  have size : (decimal n.natAbs).length = (Nat.toDigits 10 n.natAbs).length := List.length_map _
  obtain ⟨p, tail, written, solid, scanned⟩ := scans_int n (show Ends [] from nofun)
  rw [List.append_nil] at scanned
  rw [read, if_neg (head?_toString n), written, Machine.run]
  simp [solid, scanned, Machine.step, Machine.begin, size, long]

end Json

namespace Program

theorem ofText_orderly_or (limits : Json.Limits) (file : Option Text) (text : Text) :
    Orderly (ofText limits file text) ∨
      (∃ d op, Json.read limits text = .ok d ∧ d.Trips file op ∧
        ofText limits file text = .error (.compoundOperator op)) ∨
      ∃ n, Json.Overlong limits.digits n text ∧
        ofText limits file text = .error (.longNumeral n limits.digits) := by
  rw [ofText]
  cases done : Json.read limits text with
  | ok d =>
      by_cases trips : ∃ op, d.Trips file op
      · obtain ⟨op, trips⟩ := trips
        exact .inr (.inl ⟨d, op, rfl, trips, ofJson_of_trips trips⟩)
      · exact .inl (ofJson_orderly_iff.2 trips)
  | error fault =>
      cases fault with
      | flawed flaw offset => exact .inl (.malformed _ _)
      | tooDeep => exact .inl (.malformed _ _)
      | longNumeral n => exact .inr (.inr ⟨n, Json.read_longNumeral done, rfl⟩)

end Program

namespace Cli

/-- The input holds the text, and complaints about it name the file. -/
structure Surroundings.Holds (s : Surroundings) (input : String) (file text : Text) : Prop where
  path : '\x00' ∉ input.toList
  named : file = if input = "-" then "<stdin>" else input
  decoded : ∃ bytes cs, (if input = "-" then .ok s.stdin else s.fetch input) = .ok bytes ∧
    Text.Utf8.decode bytes = .ok cs ∧ text = Text.ofChars (Text.unifyLineEnds cs)

structure Gets (s : Surroundings) (command : Command) (depth : Nat) (file text : Text) :
    Prop where
  starts : ∃ least limit, command.recursionLimit = some least ∧
    s.limit.enter least = (limit, none) ∧ depth = limit.current.toNat
  holds : s.Holds (command.input.getD "") file text

variable {s : Surroundings} {input : String} {file text : Text} {depth : Nat}

theorem load_malformed {cause : Malformed} {place : Option Location}
    (holds : s.Holds input file text)
    (failed : Program.ofText { depth } (some file) text = .error (.malformed cause place)) :
    load s depth input = .failed (.malformed (.malformed cause place)) := by
  obtain ⟨path, rfl, bytes, cs, fetched, decoded, rfl⟩ := holds
  simp only [load, List.contains_iff_mem, path, if_false, fetched, decoded, failed]

theorem load_escaped {fault : LoadError} (holds : s.Holds input file text)
    (failed : Program.ofText { depth } (some file) text = .error fault) (escapes : fault.Escapes) :
    load s depth input = .escaped (.load fault) := by
  obtain ⟨path, rfl, bytes, cs, fetched, decoded, rfl⟩ := holds
  simp only [load, List.contains_iff_mem, path, if_false, fetched, decoded, failed]
  cases fault with
  | malformed => cases escapes
  | compoundOperator | longNumeral => rfl

theorem holds_of_load_escaped {fault : LoadError}
    (escaped : load s depth input = .escaped (.load fault)) :
    fault.Escapes ∧ ∃ file text, s.Holds input file text ∧
      Program.ofText { depth } (some file) text = .error fault := by
  simp only [load, List.contains_iff_mem] at escaped
  split at escaped
  · cases escaped
  · rename_i path
    split at escaped
    · cases escaped
    · rename_i bytes fetched
      split at escaped
      · cases escaped
      · rename_i cs decoded
        split at escaped
        · cases escaped
        · cases escaped
        · rename_i fault other failed
          cases escaped
          have escapes : fault.Escapes := by
            cases fault with
            | malformed cause place => exact other cause place rfl
            | compoundOperator | longNumeral => trivial
          exact ⟨escapes, _, _, ⟨path, rfl, bytes, cs, fetched, decoded, rfl⟩, failed⟩

variable {command : Command} {level : Level}

theorem bind_mapError_write_ne {α β : Type} {written : Except Text.LongNumeral α}
    {f : α → β} {fault : LoadError} :
    (written.mapError Escape.write >>= fun a => pure (f a)) ≠ .error (.load fault) := by
  cases written <;> simp [Except.mapError, bind, Except.bind, pure, Except.pure]

theorem runInfer_eq_error {loaded : Loaded} {fault : LoadError} :
    runInfer s level command loaded = .error (.load fault) ↔ loaded = .escaped (.load fault) := by
  cases loaded with
  | escaped other => simp [runInfer]
  | failed trouble => cases trouble <;> simp [runInfer]
  | program e =>
      cases ended : e.run command.annotated with
      | error fault trace => simp [runInfer, ended]
      | ok result trace =>
          simp only [runInfer, ended, reduceCtorEq, iff_false]
          exact bind_mapError_write_ne

theorem runShow_eq_error {loaded : Loaded} {fault : LoadError} :
    runShow s loaded = .error (.load fault) ↔ loaded = .escaped (.load fault) := by
  cases loaded with
  | escaped other => simp [runShow]
  | failed trouble => simp [runShow]
  | program e =>
      simp only [runShow, reduceCtorEq, iff_false]
      exact bind_mapError_write_ne

theorem runCommand_infer (gets : Gets s command depth file text)
    (action : command.action = .infer) : runCommand s level command =
      runInfer s level command (load s depth (command.input.getD "")) := by
  obtain ⟨least, limit, asked, entered, rfl⟩ := gets.starts
  simp only [runCommand, asked, entered, action]

theorem runCommand_display (gets : Gets s command depth file text)
    (action : command.action = .display) :
    runCommand s level command = runShow s (load s depth (command.input.getD "")) := by
  obtain ⟨least, limit, asked, entered, rfl⟩ := gets.starts
  simp only [runCommand, asked, entered, action]

theorem runCommand_malformed {cause : Malformed} {place : Option Location}
    (gets : Gets s command depth file text)
    (failed : Program.ofText { depth } (some file) text = .error (.malformed cause place)) :
    ∃ log, runCommand s level command = .ok {
      exit := 1
      stderr := log ++ errorLine s.palette (LoadError.malformed cause place).message } := by
  cases action : command.action with
  | infer =>
      rw [runCommand_infer gets action, load_malformed gets.holds failed]
      exact ⟨_, rfl⟩
  | display =>
      rw [runCommand_display gets action, load_malformed gets.holds failed]
      exact ⟨"", rfl⟩

theorem runCommand_eq_escape {fault : LoadError} :
    runCommand s level command = .error (.load fault) ↔
      fault.Escapes ∧ ∃ depth file text, Gets s command depth file text ∧
        Program.ofText { depth } (some file) text = .error fault := by
  constructor
  · intro escaped
    rw [runCommand] at escaped
    split at escaped
    · cases escaped
    · rename_i least asked
      split at escaped
      · cases escaped
      · rename_i limit entered
        have loaded :
            load s limit.current.toNat (command.input.getD "") = .escaped (.load fault) := by
          cases action : command.action <;> simp only [action] at escaped
          · exact runInfer_eq_error.1 escaped
          · exact runShow_eq_error.1 escaped
        obtain ⟨escapes, file, text, holds, failed⟩ := holds_of_load_escaped loaded
        exact ⟨escapes, _, file, text, ⟨⟨least, limit, asked, entered, rfl⟩, holds⟩, failed⟩
  · rintro ⟨escapes, depth, file, text, gets, failed⟩
    have loaded := load_escaped gets.holds failed escapes
    cases action : command.action with
    | infer => exact (runCommand_infer gets action).trans (runInfer_eq_error.2 loaded)
    | display => exact (runCommand_display gets action).trans (runShow_eq_error.2 loaded)

end Cli

/-- Loading a value gives a program or finds it malformed, unless it trips; loading a text does so
too, unless the text has too long a numeral. A command reports what is malformed and ends with
status 1, and nothing else about its input escapes it. -/
theorem loading_is_orderly_unless (limits : Json.Limits) (file : Option Text) (d : Json)
    (text : Text) (s : Cli.Surroundings) (level : Cli.Level) (command : Cli.Command) :
    (Orderly (Program.ofJson file d) ↔ ¬∃ op, d.Trips file op) ∧
    (∀ op, Program.ofJson file d = .error (.compoundOperator op) ↔ d.Trips file op) ∧
    (Orderly (Program.ofText limits file text) ∨
      (∃ d op, Json.read limits text = .ok d ∧ d.Trips file op ∧
        Program.ofText limits file text = .error (.compoundOperator op)) ∨
      ∃ n, Json.Overlong limits.digits n text ∧
        Program.ofText limits file text = .error (.longNumeral n limits.digits)) ∧
    (∀ n : Int, limits.digits < (Nat.toDigits 10 n.natAbs).length →
      Program.ofText limits file (toString n) =
        .error (.longNumeral (Nat.toDigits 10 n.natAbs).length limits.digits)) ∧
    (∀ depth source input cause place, Cli.Gets s command depth source input →
      Program.ofText { depth } (some source) input = .error (.malformed cause place) →
      ∃ log, Cli.runCommand s level command = .ok {
        exit := 1
        stderr := log ++ Cli.errorLine s.palette (LoadError.malformed cause place).message }) ∧
    ∀ fault, Cli.runCommand s level command = .error (.load fault) ↔ fault.Escapes ∧
      ∃ depth source input, Cli.Gets s command depth source input ∧
        Program.ofText { depth } (some source) input = .error fault := by
  refine ⟨Program.ofJson_orderly_iff, fun op => Program.ofJson_eq_compoundOperator,
    Program.ofText_orderly_or limits file text, fun n long => ?_, ?_,
    fun fault => Cli.runCommand_eq_escape⟩
  · rw [Program.ofText, Json.read_toString_long n long]
  · intro depth source input cause place gets failed
    exact Cli.runCommand_malformed gets failed

theorem loading_is_orderly_unless_array :
    let s : Cli.Surroundings := { words := [], stdin := [0x5B, 0x5D] }
    let command : Cli.Command := { action := .display, input := some "-" }
    Cli.Gets s command 10000 "<stdin>" "[]" ∧
      Program.ofText { depth := 10000 } (some "<stdin>") "[]" =
        .error (.malformed (.notObject (.arr [])) none) ∧
      ∃ log, Cli.runCommand s .warning command = .ok {
        exit := 1
        stderr := log ++
          Cli.errorLine s.palette (LoadError.malformed (.notObject (.arr [])) none).message } := by
  intro s command
  have gets : Cli.Gets s command 10000 "<stdin>" "[]" :=
    ⟨⟨10000, _, rfl, rfl, rfl⟩, by decide, rfl, [0x5B, 0x5D], ['[', ']'], rfl, rfl, rfl⟩
  have failed : Program.ofText { depth := 10000 } (some "<stdin>") "[]" =
      .error (.malformed (.notObject (.arr [])) none) := by
    have written : ("[]" : Text) = Json.write .compact 0 (.arr []) := rfl
    have read : Json.read { depth := 10000 } (Json.write .compact 0 (.arr [])) = .ok (.arr []) :=
      Json.read_write .compact (.arr []) trivial (by decide)
    rw [Program.ofText, written, read]
    rfl
  obtain ⟨-, -, -, -, reports, -⟩ :=
    loading_is_orderly_unless { depth := 10000 } (some "<stdin>") (.arr []) "[]" s .warning command
  exact ⟨gets, failed, reports _ _ _ _ _ gets failed⟩

theorem array_operator_escapes :
    let number (n : Int) : Json := .obj [("node", .str "int"), ("value", .int n)]
    let d : Json := .obj [("node", .str "binop"), ("operator", .arr []), ("left", number 1),
      ("right", number 2)]
    Program.ofJson none d = .error (.compoundOperator (.arr [])) ∧
      ¬Orderly (Program.ofJson none d) := by
  intro number d
  have trips : d.Trips none (.arr []) := .here ⟨rfl, .absent rfl⟩ rfl trivial
  have failed := Program.ofJson_of_trips trips
  have escapes : (LoadError.compoundOperator (.arr [])).Escapes := trivial
  exact ⟨failed, fun orderly => orderly.ne_error escapes failed⟩

end HindleyMilner

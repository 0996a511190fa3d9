import HindleyMilner.Proofs.Listing
import HindleyMilner.Proofs.LoadFailure
import HindleyMilner.Proofs.TypeEntries

/-!
What is loaded can be written. The reader refuses a numeral with more digits than its limit, and a
program, its annotated tree and all that is said about them hold no other numbers than the text
they were loaded from. So no command stops at a number that it cannot write.
-/

namespace HindleyMilner

theorem Location.integers_toJson (place : Location) : place.toJson.integers = place.integers := by
  obtain ⟨line, column, -, -⟩ := place
  cases line <;> cases column <;> rfl

namespace Json

theorem mem_integersOfItems {items : List Json} {n : Int} :
    n ∈ integersOfItems items ↔ ∃ item ∈ items, n ∈ item.integers := by
  induction items with
  | nil => simp [integersOfItems]
  | cons item items ih => simp [integersOfItems, ih]

theorem mem_integersOfFields {fields : List (Text × Json)} {n : Int} :
    n ∈ integersOfFields fields ↔ ∃ field ∈ fields, n ∈ field.2.integers := by
  induction fields with
  | nil => simp [integersOfFields]
  | cons field fields ih => simp [integersOfFields, ih]

theorem integersOfFields_append (first second : List (Text × Json)) :
    integersOfFields (first ++ second) = integersOfFields first ++ integersOfFields second := by
  induction first with
  | nil => rfl
  | cons field first ih => simp [integersOfFields, ih]

theorem mem_integers_put {key : Text} {value : Json} {fields : List (Text × Json)} {n : Int}
    (h : n ∈ integersOfFields (put key value fields)) :
    n ∈ value.integers ∨ n ∈ integersOfFields fields := by
  induction fields with
  | nil => simpa [put, integersOfFields] using h
  | cons field fields ih =>
      rw [put] at h
      split at h
      · rw [integersOfFields, List.mem_append] at h ⊢
        exact h.imp_right .inr
      · rw [integersOfFields, List.mem_append] at h ⊢
        rcases h with h | h
        · exact .inr (.inl h)
        · exact (ih h).imp_right .inr

theorem mem_integers_putAll {done fields : List (Text × Json)} {n : Int}
    (h : n ∈ integersOfFields (putAll done fields)) :
    n ∈ integersOfFields done ∨ n ∈ integersOfFields fields := by
  induction fields generalizing done with
  | nil => exact .inl h
  | cons field fields ih =>
      rw [integersOfFields, List.mem_append]
      rcases ih h with h | h
      · exact (mem_integers_put h).elim (.inr ∘ .inl) .inl
      · exact .inr (.inr h)

theorem integers_of_get? {d c : Json} {key : Text} (found : d.get? key = some c) :
    c.integers ⊆ d.integers := by
  obtain ⟨fields, rfl⟩ := exists_fields_of_get? found
  obtain ⟨before, after, rfl, -⟩ := List.lookup_eq_some_iff.1 found
  exact fun n hn => mem_integersOfFields.2 ⟨(key, c), by simp, hn⟩

theorem toNat_of_isDigit {p : Point} (h : isDigit p = true) : p.toNat - 48 ≤ 9 := by
  cases p with
  | char c =>
      simp only [isDigit, Bool.and_eq_true, decide_eq_true_eq] at h
      have le : c.toNat ≤ '9'.toNat := h.2
      rw [Point.toNat]
      exact Nat.sub_le_of_le_add le
  | high | low => cases h

theorem naturalOf_lt {digits : Text} (h : ∀ p ∈ digits, isDigit p = true) :
    naturalOf digits < Nat.pow 10 digits.length := by
  have bound (start : Nat) : digits.foldl (fun n p => 10 * n + (p.toNat - 48)) start <
      (start + 1) * Nat.pow 10 digits.length := by
    induction digits generalizing start with
    | nil => simp
    | cons p digits ih =>
        have digit := toNat_of_isDigit (h p List.mem_cons_self)
        have rest := ih (fun q hq => h q (List.mem_cons_of_mem p hq)) (10 * start + (p.toNat - 48))
        calc
          _ < (10 * start + (p.toNat - 48) + 1) * Nat.pow 10 digits.length := rest
          _ ≤ (10 * (start + 1)) * Nat.pow 10 digits.length :=
            Nat.mul_le_mul_right _ (by omega)
          _ = (start + 1) * (Nat.pow 10 digits.length * 10) := by
            rw [Nat.mul_comm 10, Nat.mul_assoc, Nat.mul_comm 10]
  have whole := bound 0
  rwa [Nat.zero_add, Nat.one_mul] at whole

theorem short_naturalOf {limit : Nat} (pos : 0 < limit) {digits : Text}
    (h : ∀ p ∈ digits, isDigit p = true) (few : digits.length ≤ limit) :
    Short limit (naturalOf digits) := by
  rw [Short, Text.digitCount, Int.natAbs_natCast, Nat.length_toDigits_le_iff (by decide) pos]
  exact Nat.lt_of_lt_of_le (naturalOf_lt h) (Nat.pow_le_pow_right (by decide) few)

/-- A token brings in no number but the one that its digits spell. -/
def Token.Plain : Token → Prop
  | scalar value => value.integers = []
  | integer _ digits => ∀ p ∈ digits, isDigit p = true
  | openArray | closeArray | openObject | closeObject | comma | colon => True
  | text _ | flawed .. | stray => True

theorem plain_scanNumber? {negative : Bool} {text : Text} {token : Token} {size : Nat}
    (h : scanNumber? negative text = some (token, size)) : token.Plain := by
  simp only [scanNumber?, Option.ite_none_left_eq_some] at h
  obtain ⟨-, h⟩ := h
  split at h
  · cases h
    exact fun _ => isDigit_of_mem_wholeOf
  · cases h
    rfl

theorem plain_scanWord? {text : Text} {token : Token} {size : Nat}
    (h : scanWord? text = some (token, size)) : token.Plain := by
  obtain ⟨word, listed, same⟩ := Option.map_eq_some_iff.1 h
  cases same
  have all : ∀ word ∈ words, word.2.integers = [] := by decide
  exact all word (List.mem_of_find?_eq_some listed)

theorem plain_scan (p : Point) (rest : Text) : (scan p rest).1.Plain := by
  unfold scan
  split
  · rw [scanText]
    split <;> trivial
  · split
    · rename_i token mark
      unfold punctuation? at mark
      split at mark <;> cases mark <;> trivial
    · split
      · rename_i found
        exact plain_scanWord? found
      · split
        · cases number : scanNumber? true rest with
          | none => trivial
          | some found =>
              obtain ⟨token, size⟩ := found
              exact plain_scanNumber? number
        · cases number : scanNumber? false (p :: rest) with
          | none => trivial
          | some found =>
              obtain ⟨token, size⟩ := found
              exact plain_scanNumber? number

def Frame.integers : Frame → List Int
  | item done => integersOfItems done
  | field done _ => integersOfFields done

def State.integers : State → List Int
  | .value frames | firstItem frames | firstKey frames => frames.flatMap Frame.integers
  | key done frames | colon done _ frames => integersOfFields done ++ frames.flatMap Frame.integers
  | after v frames => v.integers ++ frames.flatMap Frame.integers

theorem State.integers_after_item (v : Json) (done : List Json) (frames : List Frame) :
    (after v (.item done :: frames)).integers =
      integersOfItems (v :: done) ++ frames.flatMap Frame.integers := by
  rw [integers, integersOfItems, List.flatMap_cons, Frame.integers, List.append_assoc]

theorem State.integers_after_field (v : Json) (done : List (Text × Json)) (key : Text)
    (frames : List Frame) : (after v (.field done key :: frames)).integers =
      integersOfFields ((key, v) :: done) ++ frames.flatMap Frame.integers := by
  rw [integers, integersOfFields, List.flatMap_cons, Frame.integers, List.append_assoc]

section

variable {limits : Limits} (pos : 0 < limits.digits)

include pos

theorem short_begin {room offset : Nat} {frames : List Frame} {token : Token} {next : Machine}
    (plain : token.Plain) (begun : Machine.begin limits room frames offset token = .ok next)
    (short : ∀ n ∈ frames.flatMap Frame.integers, Short limits.digits n) :
    ∀ n ∈ next.state.integers, Short limits.digits n := by
  cases token with
  | openArray | openObject =>
      rw [Machine.begin] at begun
      split at begun
      · cases begun
      · cases begun
        exact short
  | scalar value =>
      cases begun
      change value.integers = [] at plain
      rwa [State.integers, plain, List.nil_append]
  | text value =>
      cases begun
      exact short
  | integer negative digits =>
      rw [Machine.begin] at begun
      split at begun
      · cases begun
      · rename_i few
        cases begun
        have fits := short_naturalOf pos plain (Nat.le_of_not_lt few)
        refine List.forall_mem_cons.2 ⟨?_, short⟩
        split
        · rwa [Short, Text.digitCount, Int.natAbs_neg]
        · exact fits
  | closeArray | closeObject | comma | colon | flawed | stray => cases begun

theorem short_step {m next : Machine} {offset : Nat} {token : Token} (plain : token.Plain)
    (short : ∀ n ∈ m.state.integers, Short limits.digits n)
    (stepped : m.step limits offset token = .ok next) :
    ∀ n ∈ next.state.integers, Short limits.digits n := by
  have ofKey {room : Nat} {done : List (Text × Json)} {frames : List Frame}
      (begun : Machine.beginKey room done frames offset token = .ok next) :
      next.state.integers = (State.key done frames).integers := by
    cases token <;> cases begun
    rfl
  revert stepped
  fun_cases Machine.step limits m offset token with
  | case1 frames _ state | case3 frames _ _ state =>
      rw [state] at short
      exact fun begun => short_begin pos plain begun short
  | case5 frames _ _ state | case6 done frames _ state =>
      rw [state] at short
      intro begun
      rwa [ofKey begun]
  | case2 frames state | case4 frames state | case7 done key frames state =>
      rw [state] at short
      rintro ⟨⟩
      exact short
  | case8 v done frames state =>
      rw [state, State.integers_after_item] at short
      rintro ⟨⟩
      exact short
  | case9 v done frames state =>
      rw [state, State.integers_after_item] at short
      rintro ⟨⟩ n hn
      refine short n (List.mem_append.2 ((List.mem_append.1 hn).imp_left fun hn => ?_))
      simpa only [integers, mem_integersOfItems, List.mem_reverse] using hn
  | case10 v done key frames state =>
      rw [state, State.integers_after_field] at short
      rintro ⟨⟩
      exact short
  | case11 v done key frames state =>
      rw [state, State.integers_after_field] at short
      rintro ⟨⟩ n hn
      refine short n (List.mem_append.2 ((List.mem_append.1 hn).imp_left fun hn => ?_))
      have given := (mem_integers_putAll hn).resolve_left List.not_mem_nil
      simpa only [mem_integersOfFields, List.mem_reverse] using given
  | case12 => rintro ⟨⟩

theorem short_run {m : Machine} {offset : Nat} {text : Text} {v : Json}
    (short : ∀ n ∈ m.state.integers, Short limits.digits n)
    (h : Machine.run limits m offset text = .ok v) : ∀ n ∈ v.integers, Short limits.digits n := by
  fun_induction Machine.run limits m offset text with
  | case1 m offset value state =>
      cases h
      rwa [state, State.integers, List.flatMap_nil, List.append_nil] at short
  | case2 | case4 => cases h
  | case3 m offset p rest space ih => exact ih short h
  | case5 m offset p rest solid found next stepped ih =>
      exact ih (short_step pos (plain_scan p rest) short stepped) h

theorem short_read {text : Text} {v : Json} (h : read limits text = .ok v) :
    ∀ n ∈ v.integers, Short limits.digits n := by
  rw [read] at h
  split at h
  · cases h
  · exact short_run pos (List.forall_mem_nil _) h

end

theorem Placed.integers {d : Json} {file : Option Text} {place : Option Location}
    (placed : d.Placed file place) : ∀ p, place = some p → p.integers ⊆ d.integers := by
  rintro p rfl
  cases placed with
  | given line column found =>
      rw [← Location.integers_toJson]
      exact integers_of_get? found

end Json

theorem Expr.mem_numerals {ν : Type} {e : Expr ν} {n : Int} : n ∈ e.numerals ↔
    (∃ note, e = .int note n) ∨ ∃ child ∈ e.children, n ∈ child.numerals := by
  cases e <;> simp [numerals, children, eq_comm]

theorem Program.integers_subset {e : Program} {numbers : List Int}
    (own : ∀ place n, e = .int place n → n ∈ numbers)
    (placed : ∀ p, e.note = some p → p.integers ⊆ numbers)
    (children : ∀ child ∈ e.children, Program.integers child ⊆ numbers) :
    e.integers ⊆ numbers := by
  intro n hn
  rcases mem_integers.1 hn with hn | ⟨p, hp, hn⟩
  · rcases Expr.mem_numerals.1 hn with ⟨place, same⟩ | ⟨child, hc, hn⟩
    · exact own place n same
    · exact children child hc (mem_integers.2 (.inl hn))
  · rw [Expr.notes_eq, List.mem_cons, List.mem_flatMap] at hp
    rcases hp with same | ⟨child, hc, hp⟩
    · exact placed p same.symm hn
    · exact children child hc (mem_integers.2 (.inr ⟨p, hp, hn⟩))

theorem Json.Denotes.integers {d : Json} {e : Program} {file : Option Text}
    (h : d.Denotes file e) : e.integers ⊆ d.integers := by
  induction h with
  | int headed found =>
      refine Program.integers_subset ?_ headed.placed.integers (List.forall_mem_nil _)
      rintro place n ⟨⟩
      exact integers_of_get? found List.mem_cons_self
  | bool headed _ | str headed _ | ident headed _ =>
      refine Program.integers_subset ?_ headed.placed.integers (List.forall_mem_nil _)
      rintro place n ⟨⟩
  | func headed _ body _ ih | not headed body _ ih =>
      refine Program.integers_subset ?_ headed.placed.integers ?_
      · rintro place n ⟨⟩
      · simpa [Expr.children] using List.Subset.trans ih (integers_of_get? body)
  | binary headed _ left _ right _ ihl ihr | call headed left _ right _ ihl ihr
  | letIn headed _ _ left _ right _ ihl ihr =>
      refine Program.integers_subset ?_ headed.placed.integers ?_
      · rintro place n ⟨⟩
      · simpa [Expr.children] using ⟨List.Subset.trans ihl (integers_of_get? left),
          List.Subset.trans ihr (integers_of_get? right)⟩
  | cond headed test _ yes _ no _ iht ihy ihn =>
      refine Program.integers_subset ?_ headed.placed.integers ?_
      · rintro place n ⟨⟩
      · simpa [Expr.children] using ⟨List.Subset.trans iht (integers_of_get? test),
          List.Subset.trans ihy (integers_of_get? yes), List.Subset.trans ihn (integers_of_get? no)⟩

theorem Program.short_of_ofText {depth : Nat} {file : Option Text} {text : Text} {e : Program}
    (h : ofText { depth } file text = .ok e) : ∀ n ∈ e.integers, Json.Short Text.digitLimit n := by
  rw [ofText] at h
  split at h
  · rename_i d done
    intro n hn
    have pos : 0 < Text.digitLimit := by decide
    exact Json.short_read pos done n ((denotes_of_ofJson d e h).integers hn)
  all_goals cases h

namespace Expr

open Json

variable {ν : Type} {place : ν → Option Location} {extra : ν → List (Text × Json)}

theorem mem_integers_node {kind : Kind} {place : Option Location}
    {own extra children : List (Text × Json)} {n : Int}
    (h : n ∈ (node kind place own extra children).integers) :
    (∃ p, place = some p ∧ n ∈ p.integers) ∨ n ∈ integersOfFields own ∨
      n ∈ integersOfFields extra ∨ n ∈ integersOfFields children := by
  rw [node, integers, integersOfFields_append, integersOfFields_append, integersOfFields_append,
    List.append_assoc, List.append_assoc, List.mem_append, List.mem_append, List.mem_append] at h
  refine h.imp_left fun h => ?_
  cases place with
  | none => cases h
  | some p =>
      obtain ⟨field, hf, hn⟩ := mem_integersOfFields.1 h
      rcases List.mem_cons.1 hf with rfl | hf
      · cases hn
      · rw [List.mem_singleton.1 hf, Location.integers_toJson] at hn
        exact ⟨p, rfl, hn⟩

theorem note_map {μ : Type} (f : ν → μ) (e : Expr ν) : (e.map f).note = f e.note := by
  cases e <;> rfl

theorem children_map {μ : Type} (f : ν → μ) (e : Expr ν) :
    (e.map f).children = e.children.map (map f) := by
  cases e <;> rfl

theorem eq_int_of_mem_own {e : Expr ν} {n : Int} (h : n ∈ integersOfFields e.own) :
    ∃ note, e = .int note n := by
  cases e <;> simp_all [own, integersOfFields, integers]

theorem integers_encode (silent : ∀ note, integersOfFields (extra note) = []) (e : Expr ν) :
    (e.encode place extra).integers ⊆ Program.integers (e.map place) := by
  induction e using induction_on_children with
  | step e ih =>
    intro n hn
    rw [encode_eq_node] at hn
    rcases mem_integers_node hn with ⟨p, same, hn⟩ | hn | hn | hn
    · exact Program.integers_place ((note_map place e).trans same) hn
    · obtain ⟨note, rfl⟩ := eq_int_of_mem_own hn
      exact Program.mem_integers.2 (.inl List.mem_cons_self)
    · rw [silent] at hn
      cases hn
    · obtain ⟨field, hf, hn⟩ := mem_integersOfFields.1 hn
      obtain ⟨child, hc, encoded⟩ := List.mem_map.1 (List.of_mem_zip hf).2
      rw [← encoded] at hn
      refine Program.integers_child ?_ (ih child hc hn)
      rw [children_map]
      exact List.mem_map_of_mem hc

end Expr

theorem Annotated.short_toJson {tree : Annotated}
    (short : ∀ n ∈ Program.integers tree.erase, Json.Short Text.digitLimit n) :
    ∀ n ∈ tree.toJson.integers, Json.Short Text.digitLimit n :=
  fun n hn => short n (Expr.integers_encode (fun _ => rfl) tree hn)

theorem Program.erase_of_run {annotate : Bool} {e : Program} {result : Inference} {trace : Trace}
    (ran : e.run annotate = .ok result trace) {tree : Annotated} (given : result.tree = some tree) :
    tree.erase = e := by
  cases annotate with
  | false =>
      obtain ⟨_, _, _, _, _, _, _, _, bare⟩ := run_ok ran
      cases given.symm.trans bare
  | true =>
      obtain ⟨other, annotated, erased, -⟩ := exists_legible_tree ran
      rwa [Option.some.inj (given.symm.trans annotated)]

namespace Cli

variable {command : Command} {result : Inference}

section

variable (short : ∀ tree, result.tree = some tree →
  ∀ n ∈ Program.integers tree.erase, Json.Short Text.digitLimit n)

include short

theorem jsonReport_ok : ∃ text, jsonReport command result = .ok text := by
  unfold jsonReport
  extract_lets type constraints annotated
  have texts : ∀ list : List Constraint,
      (Json.arr (list.map fun c => .str c.text)).integers = [] := by
    intro list
    rw [Json.integers]
    induction list with
    | nil => rfl
    | cons c list ih => exact ih
  have listed : Json.integersOfFields constraints = [] := by
    simp only [constraints]
    split
    · rw [Json.integersOfFields, texts]
      rfl
    · rfl
  have whole : ∀ n ∈ (Json.obj (type ++ constraints ++ annotated)).integers,
      Json.Short Text.digitLimit n := by
    have shown : Json.integersOfFields type = [] := rfl
    rw [Json.integers, Json.integersOfFields_append, Json.integersOfFields_append, shown, listed,
      List.append_nil, List.nil_append]
    cases given : result.tree with
    | none =>
        simp only [annotated, given]
        exact List.forall_mem_nil _
    | some tree =>
        simp only [annotated, given]
        rw [Json.integersOfFields, Json.integersOfFields, List.append_nil]
        exact Annotated.short_toJson (short tree given)
  rw [Json.render, Text.limited_eq_ok.2 ⟨whole, rfl⟩]
  exact ⟨_, rfl⟩

theorem textReport_ok {p : Palette} : ∃ text, textReport p command result = .ok text := by
  unfold textReport
  cases given : result.tree with
  | none => exact ⟨_, rfl⟩
  | some tree =>
      have numerals : ∀ n ∈ tree.numerals, Json.Short Text.digitLimit n := by
        intro n hn
        refine short tree given n (Program.mem_integers.2 (.inl ?_))
        rwa [Annotated.erase, Expr.numerals_map]
      simp only [Annotated.listing_eq, Text.limited_eq_ok.2 ⟨numerals, rfl⟩]
      exact ⟨_, rfl⟩

end

theorem short_of_load {s : Surroundings} {depth : Nat} {input : String} {e : Program}
    (loaded : load s depth input = .program e) :
    ∀ n ∈ e.integers, Json.Short Text.digitLimit n := by
  simp only [load] at loaded
  split at loaded
  · cases loaded
  · split at loaded
    · cases loaded
    · split at loaded
      · cases loaded
      · split at loaded
        · rename_i found
          cases loaded
          exact Program.short_of_ofText found
        · cases loaded
        · cases loaded

theorem load_ne_write {s : Surroundings} {depth : Nat} {input : String}
    {fault : Text.LongNumeral} : load s depth input ≠ .escaped (.write fault) := by
  simp only [load]
  repeat' split
  all_goals simp

theorem runInfer_program {s : Surroundings} {level : Level} {e : Program}
    (short : ∀ n ∈ e.integers, Json.Short Text.digitLimit n) :
    ∃ output, runInfer s level command (.program e) = .ok output := by
  cases ran : e.run command.annotated with
  | error fault trace => simp only [runInfer, ran, Except.ok.injEq, exists_eq']
  | ok result trace =>
      have kept : ∀ tree, result.tree = some tree →
          ∀ n ∈ Program.integers tree.erase, Json.Short Text.digitLimit n := by
        intro tree given
        rwa [Program.erase_of_run ran given]
      have reported : ∃ text, (if command.json then jsonReport command result
          else textReport s.palette command result) = .ok text := by
        split
        · exact jsonReport_ok kept
        · exact textReport_ok kept
      obtain ⟨text, reported⟩ := reported
      simp only [runInfer, ran, reported]
      exact ⟨_, rfl⟩

theorem runShow_program {s : Surroundings} {e : Program}
    (short : ∀ n ∈ e.integers, Json.Short Text.digitLimit n) :
    ∃ output, runShow s (.program e) = .ok output := by
  have numerals : ∀ n ∈ e.numerals, Json.Short Text.digitLimit n := fun n hn =>
    short n (Program.mem_integers.2 (.inl hn))
  rw [runShow, e.source_eq, Text.limited_eq_ok.2 ⟨numerals, rfl⟩]
  exact ⟨_, rfl⟩

theorem runCommand_ne_write {s : Surroundings} {level : Level} {fault : Text.LongNumeral} :
    runCommand s level command ≠ .error (.write fault) := by
  rw [runCommand]
  split
  · simp
  · split
    · simp
    · rename_i limit _
      cases loaded : load s limit.current.toNat (command.input.getD "") with
      | program e =>
          have short := short_of_load loaded
          cases command.action with
          | infer =>
              obtain ⟨output, ran⟩ := @runInfer_program command s level e short
              simp [ran]
          | display =>
              obtain ⟨output, ran⟩ := @runShow_program s e short
              simp [ran]
      | failed trouble =>
          cases command.action <;> cases trouble <;> simp [runInfer, runShow]
      | escaped other =>
          have : other ≠ .write fault := fun same => load_ne_write (same ▸ loaded)
          cases command.action <;> simpa [runInfer, runShow]

/-- A numeral too long to be written is too long to be read, so no run fails in writing. -/
theorem run_ne_write (s : Surroundings) (fault : Text.LongNumeral) :
    run s ≠ .error (.write fault) := by
  rw [run]
  split
  · simp
  · split
    · simp
    · simp
    · exact runCommand_ne_write

end Cli

end HindleyMilner
